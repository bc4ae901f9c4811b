import JvmFrames.Proofs.MergeOrder

/-!
# Catch types and the order of the exception table

A handler catches what the types of all its ranges have in common. That is a fold over its ranges,
in the order of the table (`JoinGraph.catchType?_addRanges`), and comes out the same for every order
(`JoinGraph.catchType?_build_perm`).
-/

namespace JvmFrames

/-- All labels of a range are placed. -/
def ProtectedRange.Placed (g : JoinGraph) (range : ProtectedRange) : Prop :=
  (∃ p, g.position range.start = .ok p) ∧ (∃ p, g.position range.stop = .ok p)
    ∧ ∃ p, g.position range.handler = .ok p

/-- What a handler catches after one more type, given what it has caught so far. -/
def catching (oracle : Oracle) (caught? : Option RefType) (t : RefType) : Option RefType :=
  some (match caught? with
    | none => t
    | some s => oracle s t)

/-- Two types may be caught in either order. -/
theorem catching_right_comm {oracle : Oracle} (hlaw : Oracle.Lawful oracle)
    (hanti : Oracle.Antisymm oracle) (caught? : Option RefType) (s t : RefType) :
    catching oracle (catching oracle caught? s) t = catching oracle (catching oracle caught? t) s := by
  cases caught? with
  | none =>
    show some (oracle s t) = some (oracle t s)
    rw [hlaw.comm hanti]
  | some r =>
    show some (oracle (oracle r s) t) = some (oracle (oracle r t) s)
    rw [hlaw.assoc hanti, hlaw.comm hanti s t, ← hlaw.assoc hanti]

namespace JoinGraph

variable {oracle : Oracle} {g g' : JoinGraph} {range : ProtectedRange}
variable {ranges ranges' : List ProtectedRange} {code : Code}

/-- Adding a range moves no label. -/
theorem position_addRange (h : g.addRange oracle range = .ok g') (l : Label) :
    g'.position l = g.position l := by
  obtain ⟨start, stop, entry, j, _, _, _, _, rfl⟩ := addRange_cases h
  show (g.addJoin range.handler entry).position l = g.position l
  unfold addJoin
  split <;> rfl

theorem placed_of_addRange (h : g.addRange oracle range = .ok g') : range.Placed g := by
  obtain ⟨start, stop, entry, _, hstart, hstop, hentry, _, _⟩ := addRange_cases h
  exact ⟨⟨start, hstart⟩, ⟨stop, hstop⟩, ⟨entry, hentry⟩⟩

/-- A range can be added if its labels are placed. -/
theorem exists_addRange (oracle : Oracle) (h : range.Placed g) :
    ∃ g', g.addRange oracle range = .ok g' := by
  obtain ⟨⟨start, hstart⟩, ⟨stop, hstop⟩, ⟨entry, hentry⟩⟩ := h
  unfold addRange
  rw [hstart, hstop, hentry]
  simp only [bind, Except.bind]
  split
  · exact ⟨_, rfl⟩
  · exact ⟨_, rfl⟩

/-- Whether the labels of a range are placed does not depend on other ranges. -/
theorem placed_iff_of_addRange {r : ProtectedRange} (h : g.addRange oracle range = .ok g') :
    r.Placed g' ↔ r.Placed g := by
  simp only [ProtectedRange.Placed, position_addRange h]

/-- Ranges can be added exactly if all their labels are placed. -/
theorem exists_addRanges_iff :
    (∃ g', g.addRanges oracle ranges = .ok g') ↔ ∀ r ∈ ranges, r.Placed g := by
  induction ranges generalizing g with
  | nil => simp [addRanges]
  | cons range rest ih =>
    rw [addRanges, List.forall_mem_cons]
    constructor
    · rintro ⟨g', h⟩
      cases hrange : g.addRange oracle range with
      | error e => rw [hrange] at h; cases h
      | ok g₁ =>
        rw [hrange] at h
        -- adding a range does not move labels, so the rest is placed in the old graph too
        refine ⟨placed_of_addRange hrange, fun r hr => ?_⟩
        exact (placed_iff_of_addRange hrange).mp (ih.mp ⟨g', h⟩ r hr)
    · rintro ⟨hrange, hrest⟩
      obtain ⟨g₁, hg₁⟩ := exists_addRange oracle hrange
      rw [hg₁]
      exact ih.mpr fun r hr => (placed_iff_of_addRange hg₁).mpr (hrest r hr)

/-- A range is caught by its own handler in addition, and by no other. -/
theorem catchType?_addRange (h : g.addRange oracle range = .ok g') (l : Label) :
    g'.catchType? l = if range.handler = l then catching oracle (g.catchType? l) range.caught
      else g.catchType? l := by
  obtain ⟨start, stop, entry, j, _, _, _, hj, rfl⟩ := addRange_cases h
  rw [catchType?, join?_guarded _ _ hj]
  by_cases hl : l = range.handler
  · subst hl
    rw [if_pos rfl, if_pos rfl, ← catchType?_addJoin g range.handler range.handler entry,
      catchType?_of_join? hj]
    unfold widened
    cases j.handler <;> rfl
  · have hne : ¬ range.handler = l := fun heq => hl heq.symm
    rw [if_neg hl, if_neg hne, ← catchType?_addJoin g range.handler l entry]
    rfl

/-- What a handler catches after some ranges have been added: only its own ranges count. -/
theorem catchType?_addRanges (h : g.addRanges oracle ranges = .ok g') (l : Label) :
    g'.catchType? l = (ranges.filter fun r => r.handler = l).foldl
      (fun caught? r => catching oracle caught? r.caught) (g.catchType? l) := by
  induction ranges generalizing g with
  | nil => cases h; rfl
  | cons range rest ih =>
    rw [addRanges] at h
    cases hrange : g.addRange oracle range with
    | error e => rw [hrange] at h; cases h
    | ok g₁ =>
      rw [hrange] at h
      rw [ih h, catchType?_addRange hrange]
      by_cases hl : range.handler = l
      · rw [if_pos hl, List.filter_cons_of_pos (by simp [hl]), List.foldl_cons]
      · rw [if_neg hl, List.filter_cons_of_neg (by simp [hl])]

/-- For every order of the exception table the join points can be found if they can for one, and
every handler catches the same. -/
theorem catchType?_build_perm (hlaw : Oracle.Lawful oracle) (hanti : Oracle.Antisymm oracle)
    (hperm : ranges.Perm ranges') (h : build oracle code ranges = .ok g) :
    ∃ g', build oracle code ranges' = .ok g' ∧ ∀ l, g'.catchType? l = g.catchType? l := by
  unfold build at h ⊢
  cases hjumps : ofJumps code with
  | error e => rw [hjumps] at h; cases h
  | ok g₀ =>
    rw [hjumps] at h
    have hplaced := exists_addRanges_iff.mp ⟨g, h⟩
    obtain ⟨g', h'⟩ := exists_addRanges_iff.mpr fun r hr => hplaced r (hperm.mem_iff.mpr hr)
    refine ⟨g', h', fun l => ?_⟩
    rw [catchType?_addRanges h, catchType?_addRanges h']
    exact ((hperm.filter _).foldl_eq'
      (fun r _ s _ caught? => catching_right_comm hlaw hanti caught? r.caught s.caught) _).symm

end JoinGraph

end JvmFrames
