import ClassCompiler.Proofs.Stack.Discipline

/-!
# Bodies replayed

A draft keeps count of the stack while items are written. All that it keeps can be found again from
the items alone: they are replayed one after the other, and where a depth has to be restored at a
label, the first jump to it is looked for among the items before. An item that the draft refuses
leaves nothing behind, so it does not matter what else was tried. The replay counts without a limit;
the draft has what 16 bits keep of its counts.
-/

namespace ClassCompiler.Stack

abbrev Replayed := List (Item × Nat)

def depthAfter (past : Replayed) : Nat := (past.getLast?.map (·.2)).getD 0

def blockEnded (past : Replayed) : Bool := past.getLast?.any (·.1.endsBlock)

/-- The depth at which a label is first jumped to. -/
def jumpDepth? (past : Replayed) (label : String) : Option Nat :=
  (past.find? (·.1.target? = some label)).map (·.2)

/-- The depth after one more item; there is none if the item takes more than the stack has. -/
def nextDepth? (past : Replayed) : Item → Option Nat
  | .label label =>
    some (if blockEnded past then (jumpDepth? past label).getD 0 else depthAfter past)
  | .instr instr =>
    if depthAfter past < instr.pops then none
    else some (depthAfter past - instr.pops + instr.pushes)

def replayNext (past : Replayed) (item : Item) : Option Replayed := do
  let depth ← nextDepth? past item
  return past ++ [(item, depth)]

def replay (items : List Item) : Option Replayed := items.foldlM replayNext []

section

variable (past : Replayed) (item : Item) (depth : Nat)

@[simp] theorem depthAfter_append : depthAfter (past ++ [(item, depth)]) = depth := by
  simp [depthAfter]

@[simp] theorem blockEnded_append :
    blockEnded (past ++ [(item, depth)]) = item.endsBlock := by
  simp [blockEnded]

@[simp] theorem jumpDepth?_append (label : String) :
    jumpDepth? (past ++ [(item, depth)]) label =
      (jumpDepth? past label).or (if item.target? = some label then some depth else none) := by
  rw [jumpDepth?, jumpDepth?, List.find?_append]
  cases hfind : past.find? (·.1.target? = some label) with
  | some entry => simp
  | none => by_cases htarget : item.target? = some label <;> simp [htarget]

theorem replay_append {items : List Item} (hpast : replay items = some past)
    (hdepth : nextDepth? past item = some depth) :
    replay (items ++ [item]) = some (past ++ [(item, depth)]) := by
  rw [replay] at hpast ⊢
  rw [List.foldlM_append, hpast]
  simp [replayNext, hdepth]

end

/-- A draft and its items, replayed. The draft has what 16 bits keep of the depths that replaying
finds. -/
structure Replays (draft : Draft) (past : Replayed) : Prop where
  replayed : replay draft.items.toList = some past
  depth : draft.depth = .ofNat (depthAfter past)
  maxDepth : draft.maxDepth.toNat = peak (past.map (·.2 % UInt16.size))
  labelDepths : ∀ label, draft.labelDepths.get? label = (jumpDepth? past label).map .ofNat
  closed : draft.closed = blockEnded past

theorem replays_initial : Replays .initial [] := ⟨rfl, rfl, rfl, fun _ => rfl, rfl⟩

/-- No depth that a draft keeps is more than the deepest. -/
structure Bounded (draft : Draft) : Prop where
  depth : draft.depth ≤ draft.maxDepth
  labelDepths : ∀ label depth, draft.labelDepths.get? label = some depth → depth ≤ draft.maxDepth

theorem bounded_initial : Bounded .initial := ⟨UInt16.zero_le, nofun⟩

section

variable {draft next : Draft} {past : Replayed}

theorem Bounded.mark (h : Bounded draft) (label : String) : Bounded (draft.mark label) := by
  refine ⟨?_, h.labelDepths⟩
  rw [Draft.mark]
  split
  · cases hget : draft.labelDepths.get? label with
    | none => exact UInt16.zero_le
    | some depth => exact h.labelDepths label depth hget
  · exact h.depth

theorem Bounded.push (h : Bounded draft) (instr : Instr) : Bounded (draft.push instr) := by
  have hdepth := depth_le_maxDepth_push draft instr
  refine ⟨hdepth, fun label depth hget => ?_⟩
  rcases get?_recordJump hget with hearlier | ⟨_, rfl⟩
  · refine UInt16.le_trans (h.labelDepths label depth hearlier) ?_
    rw [UInt16.le_iff_toNat_le, Draft.push, UInt16.toNat_max]
    exact Nat.le_max_left ..
  · exact hdepth

theorem Bounded.add (h : Bounded draft) {item : Item} (hadd : draft.add item = .ok next) :
    Bounded next := by
  rcases add_cases draft item with
    ⟨label, rfl, hnext⟩ | ⟨instr, rfl, _, hnext⟩ | ⟨instr, rfl, _, herror⟩
  · cases hnext.symm.trans hadd
    exact h.mark label
  · cases hnext.symm.trans hadd
    exact h.push instr
  · cases herror.symm.trans hadd

theorem toNat_ofNat_size (count : Nat) : (UInt16.ofNat count).toNat = count % UInt16.size :=
  UInt16.toNat_ofNat'

/-- One more depth among those that have been replayed. -/
theorem peak_counts_append (past : Replayed) (item : Item) (depth : Nat) :
    peak ((past ++ [(item, depth)]).map (·.2 % UInt16.size)) =
      max (peak (past.map (·.2 % UInt16.size))) (UInt16.ofNat depth).toNat := by
  rw [List.map_append, peak_append, toNat_ofNat_size]
  exact congrArg _ (Nat.max_zero _)

/-- A label takes the depth at which it was first jumped to, if control does not fall through to it.
-/
theorem Replays.mark (h : Replays draft past) (bounded : Bounded draft) (label : String) :
    ∃ depth, Replays (draft.mark label) (past ++ [(.label label, depth)]) := by
  obtain ⟨depth, hdepth, hnext⟩ : ∃ depth, nextDepth? past (.label label) = some depth ∧
      (draft.mark label).depth = .ofNat depth := by
    refine ⟨_, rfl, ?_⟩
    rw [Draft.mark, h.closed, h.labelDepths, h.depth]
    split
    · cases jumpDepth? past label <;> rfl
    · rfl
  refine ⟨depth, ?_, ?_, ?_, ?_, ?_⟩
  · have happend := replay_append past (.label label) _ h.replayed hdepth
    simpa [Draft.mark] using happend
  · rw [depthAfter_append, hnext]
  · -- a depth that is restored has been reached before
    have hle := UInt16.le_iff_toNat_le.mp (bounded.mark label).depth
    rw [peak_counts_append, ← h.maxDepth, ← hnext]
    exact (Nat.max_eq_left hle).symm
  · intro other
    simp [Item.target?, Draft.mark, h.labelDepths]
  · simp [Item.endsBlock, Draft.mark]

/-- An instruction that is accepted is replayed, and 16 bits of its depth are kept. -/
theorem Replays.push (h : Replays draft past) {instr : Instr} (fits : instr.pops < UInt16.size)
    (hle : instr.taken ≤ draft.depth) :
    ∃ depth, Replays (draft.push instr) (past ++ [(.instr instr, depth)]) := by
  have pops : instr.pops ≤ depthAfter past := by
    rw [Instr.taken_eq, h.depth, UInt16.le_iff_toNat_le, UInt16.toNat_ofNat_of_lt' fits,
      toNat_ofNat_size] at hle
    exact Nat.le_trans hle (Nat.mod_le ..)
  have hdepth : nextDepth? past (.instr instr) =
      some (depthAfter past - instr.pops + instr.pushes) := if_neg (Nat.not_lt.mpr pops)
  have hnext := depth_push h.depth pops
  refine ⟨depthAfter past - instr.pops + instr.pushes, ?_, ?_, ?_, ?_, ?_⟩
  · have happend := replay_append past (.instr instr) _ h.replayed hdepth
    simpa [Draft.push] using happend
  · rw [depthAfter_append, hnext]
  · have hmax : (draft.push instr).maxDepth = max draft.maxDepth (draft.push instr).depth := rfl
    rw [peak_counts_append, ← h.maxDepth, ← hnext, hmax, UInt16.toNat_max]
  · intro label
    have hrecord : (draft.push instr).labelDepths =
      Draft.recordJump draft.labelDepths instr.target? (draft.push instr).depth := rfl
    rw [hrecord, recordJump_get?, jumpDepth?_append, h.labelDepths, hnext]
    have htarget : (Item.instr instr).target? = instr.target? := rfl
    rw [htarget]
    cases jumpDepth? past label with
    | some depth => rfl
    | none => by_cases hjump : instr.target? = some label <;> simp [hjump]
  · simp [Item.endsBlock, Draft.push]

theorem Replays.add (h : Replays draft past) (bounded : Bounded draft) {item : Item}
    (fits : item.pops < UInt16.size) (hadd : draft.add item = .ok next) :
    ∃ depth, Replays next (past ++ [(item, depth)]) := by
  rcases add_cases draft item with
    ⟨label, rfl, hnext⟩ | ⟨instr, rfl, hle, hnext⟩ | ⟨instr, rfl, _, herror⟩
  · cases hnext.symm.trans hadd
    exact h.mark bounded label
  · cases hnext.symm.trans hadd
    exact h.push fits hle
  · cases herror.symm.trans hadd

end

/-- The draft after items have been asked for, of which some may be refused. -/
def Draft.attempts (items : List Item) : Draft :=
  items.foldl (fun draft item => (draft.attempt item).1) .initial

/-- An item is written or refused; only an instruction that takes more than the stack has is. -/
theorem attempt_cases (draft : Draft) (item : Item) :
    (∃ next, draft.add item = .ok next ∧ draft.attempt item = (next, none)) ∨
      ∃ instr, item = .instr instr ∧ draft.depth < instr.taken ∧
        draft.attempt item = (draft, some (.underflow instr)) := by
  cases item with
  | label label => exact .inl ⟨draft.mark label, rfl, rfl⟩
  | instr instr =>
    by_cases hlt : draft.depth < instr.taken
    · exact .inr ⟨instr, rfl, hlt, if_pos hlt⟩
    · exact .inl ⟨draft.push instr, add_of_le (UInt16.not_lt.mp hlt), if_neg hlt⟩

/-- What is refused leaves nothing behind: the items that are there give the same draft again, and
they can be replayed if 16 bits can count what each of them takes. -/
theorem replays_attempts (calls : List Item) :
    (Draft.attempts calls).items.toList.foldlM Draft.add .initial = .ok (Draft.attempts calls) ∧
      Bounded (Draft.attempts calls) ∧
      ((∀ item ∈ (Draft.attempts calls).items.toList, item.pops < UInt16.size) →
        ∃ past, Replays (Draft.attempts calls) past) := by
  induction calls using List.reverseRecOn with
  | nil => exact ⟨rfl, bounded_initial, fun _ => ⟨[], replays_initial⟩⟩
  | append_singleton calls call ih =>
    obtain ⟨hagain, bounded, hreplays⟩ := ih
    have hlast : Draft.attempts (calls ++ [call]) =
        ((Draft.attempts calls).attempt call).1 := by
      rw [Draft.attempts, List.foldl_append]
      rfl
    rw [hlast]
    rcases attempt_cases (Draft.attempts calls) call with ⟨next, hadd, hattempt⟩ |
      ⟨instr, _, _, hattempt⟩
    · rw [hattempt, items_of_add hadd]
      refine ⟨?_, bounded.add hadd, ?_⟩
      · rw [List.foldlM_append, hagain, Outcome.ok_bind]
        exact foldlM_cons_of_add hadd
      · intro fits
        rw [List.forall_mem_append] at fits
        obtain ⟨past, hpast⟩ := hreplays fits.1
        obtain ⟨depth, hnext⟩ := hpast.add bounded (fits.2 call List.mem_cons_self) hadd
        exact ⟨_, hnext⟩
    · rw [hattempt]
      exact ⟨hagain, bounded, hreplays⟩

/-- Depths that fit into 16 bits are kept in full. -/
theorem Replays.exact {draft : Draft} {past : Replayed} (h : Replays draft past)
    (fits : peak (past.map (·.2)) < UInt16.size) :
    draft.depth.toNat = depthAfter past ∧ draft.maxDepth.toNat = peak (past.map (·.2)) ∧
      ∀ label, (draft.labelDepths.get? label).map UInt16.toNat = jumpDepth? past label := by
  have hentry : ∀ entry ∈ past, entry.2 < UInt16.size := by
    intro entry hmem
    exact Nat.lt_of_le_of_lt (peak_le_iff.mp (Nat.le_refl _) _ (List.mem_map_of_mem hmem)) fits
  refine ⟨?_, ?_, fun label => ?_⟩
  · rw [h.depth, UInt16.toNat_ofNat_of_lt']
    rw [depthAfter]
    cases hlast : past.getLast? with
    | none => exact Nat.zero_lt_succ _
    | some entry => exact hentry entry (List.mem_of_getLast? hlast)
  · rw [h.maxDepth]
    exact congrArg peak (List.map_congr_left fun entry hmem => Nat.mod_eq_of_lt (hentry entry hmem))
  · rw [h.labelDepths, jumpDepth?]
    cases hfind : past.find? (·.1.target? = some label) with
    | none => rfl
    | some entry =>
      have hlt := hentry entry (List.mem_of_find?_eq_some hfind)
      exact congrArg some (UInt16.toNat_ofNat_of_lt' hlt)

/-- What a draft keeps count of is a function of its items, whatever was asked of it. A call is
refused exactly if an instruction takes more than the stack has, and then the draft stays as it is;
any other call adds its item. The depth is never more than the deepest. The items alone give the
same draft again. Replayed on an empty stack they never take more than it has, if 16 bits can count
what each of them takes. Whether control gets past the last item is as in the replay, and if the
depths fit into 16 bits too, the replay ends at the depth of the draft, the deepest it gets is what
the finished body provides for, and each label is first jumped to at the depth that the draft
keeps. -/
theorem draft_follows_items (calls : List Item) :
    let draft := Draft.attempts calls
    (∀ call,
      (∃ next, draft.attempt call = (next, none) ∧ next.items = draft.items.push call) ∨
      ∃ instr, call = .instr instr ∧ draft.depth < instr.taken ∧
        draft.attempt call = (draft, some (.underflow instr))) ∧
    draft.depth ≤ draft.maxDepth ∧
    draft.items.toList.foldlM Draft.add .initial = .ok draft ∧
    ((∀ item ∈ draft.items.toList, item.pops < UInt16.size) →
      ∃ past, replay draft.items.toList = some past ∧ blockEnded past = draft.closed ∧
        (peak (past.map (·.2)) < UInt16.size →
          depthAfter past = draft.depth.toNat ∧
          peak (past.map (·.2)) = draft.finish.maxStack.toNat ∧
          ∀ label, jumpDepth? past label = (draft.labelDepths.get? label).map UInt16.toNat)) := by
  intro draft
  obtain ⟨hagain, bounded, hreplays⟩ := replays_attempts calls
  refine ⟨?_, bounded.depth, hagain, fun hpops => ?_⟩
  · intro call
    rcases attempt_cases draft call with ⟨next, hadd, hattempt⟩ | hrefused
    · refine .inl ⟨next, hattempt, Array.ext' ?_⟩
      rw [items_of_add hadd, Array.toList_push]
    · exact .inr hrefused
  · obtain ⟨past, hpast⟩ := hreplays hpops
    refine ⟨past, hpast.replayed, hpast.closed.symm, fun fits => ?_⟩
    obtain ⟨hdepth, hmaxDepth, hlabels⟩ := hpast.exact fits
    exact ⟨hdepth.symm, hmaxDepth.symm, fun label => (hlabels label).symm⟩

end ClassCompiler.Stack
