import Mathlib.Data.List.Duplicate
import JvmFrames.Proofs.Edits
import JvmFrames.Proofs.JoinGraph.CatchTypes

/-!
# When join points can be found

Finding the join points of a body goes wrong in two ways only: a label is placed twice, or one that
a jump or the exception table refers to is not placed at all (`JoinGraph.cases_of_build`). Otherwise
the join points are the targets of jumps and the handlers, and a handler protects what its ranges
enclose (`JoinGraph.Reflects`).
-/

namespace JvmFrames

/-! ## Labels of a body

Where labels are and what refers to them is said by positions. The functions that build a graph use
lists of labels instead, and here the two are tied together. -/

/-- The labels of some nodes are those that they place. -/
theorem mem_filterMap_label? {nodes : List Node} {l : Label} :
    l ∈ nodes.filterMap Node.label? ↔ .label l ∈ nodes := by
  rw [List.mem_filterMap]
  constructor
  · rintro ⟨node, hmem, hl⟩
    cases node with
    | label l' =>
      cases hl
      exact hmem
    | _ => cases hl
  · exact fun hmem => ⟨_, hmem, rfl⟩

namespace Code

variable {code : Code} {l : Label}

/-- The label stands somewhere in the body. -/
def Places (code : Code) (l : Label) : Prop :=
  ∃ p : Nat, code.nodes[p]? = some (.label l)

/-- The label stands at two positions of the body. -/
def PlacesTwice (code : Code) (l : Label) : Prop :=
  ∃ p q : Nat, p < q ∧ code.nodes[p]? = some (.label l) ∧ code.nodes[q]? = some (.label l)

/-- Some branch may jump to the label, whether it can be reached or not. -/
def JumpsTo (code : Code) (l : Label) : Prop :=
  ∃ (p : Nat) (b : Branch), code.nodes[p]? = some (.branch b) ∧ l ∈ b.targets

theorem places_iff_mem_labels : code.Places l ↔ l ∈ code.labels := by
  rw [labels, mem_filterMap_label?, List.mem_iff_getElem?]
  simp only [Array.getElem?_toList]
  rfl

/-- The targets collected from a body are the labels that its branches may jump to. -/
theorem jumpsTo_iff_mem_jumpTargets :
    code.JumpsTo l ↔ l ∈ JoinGraph.jumpTargets code.nodes.toList := by
  constructor
  · rintro ⟨p, b, hp, hl⟩
    rw [← Array.getElem?_toList] at hp
    exact JoinGraph.mem_jumpTargets (List.mem_of_getElem? hp) hl
  · intro h
    obtain ⟨node, hmem, hl⟩ := List.mem_flatMap.mp h
    obtain ⟨p, hp⟩ := List.mem_iff_getElem?.mp hmem
    rw [Array.getElem?_toList] at hp
    cases node with
    | branch b => exact ⟨p, b, hp, hl⟩
    | _ => cases hl

end Code

/-- A label comes twice in the list of labels if it stands at two positions. -/
theorem duplicate_labels_iff {nodes : List Node} {l : Label} :
    List.Duplicate l (nodes.filterMap Node.label?) ↔ ∃ p q : Nat, p < q
      ∧ nodes[p]? = some (.label l) ∧ nodes[q]? = some (.label l) := by
  induction nodes with
  | nil => simp
  | cons node rest ih =>
    -- the first of the two is the head, or both are behind it
    have hsplit : (∃ p q : Nat, p < q ∧ (node :: rest)[p]? = some (.label l)
          ∧ (node :: rest)[q]? = some (.label l))
        ↔ (node = .label l ∧ .label l ∈ rest) ∨ List.Duplicate l (rest.filterMap Node.label?) := by
      rw [ih]
      constructor
      · rintro ⟨p, q, hlt, hp, hq⟩
        cases q with
        | zero => cases hlt
        | succ q =>
          cases p with
          | zero => exact Or.inl ⟨Option.some.inj hp, List.mem_of_getElem? hq⟩
          | succ p => exact Or.inr ⟨p, q, Nat.lt_of_succ_lt_succ hlt, hp, hq⟩
      · rintro (⟨rfl, hmem⟩ | ⟨p, q, hlt, hp, hq⟩)
        · obtain ⟨q, hq⟩ := List.mem_iff_getElem?.mp hmem
          exact ⟨0, q + 1, Nat.succ_pos q, rfl, hq⟩
        · exact ⟨p + 1, q + 1, Nat.succ_lt_succ hlt, hp, hq⟩
    rw [hsplit]
    cases node with
    | label l' =>
      show List.Duplicate l (l' :: rest.filterMap Node.label?) ↔ _
      rw [List.duplicate_cons_iff, mem_filterMap_label?, Node.label.injEq]
    | _ => simp [Node.label?, List.filterMap_cons]

theorem Code.placesTwice_iff {code : Code} {l : Label} :
    code.PlacesTwice l ↔ List.Duplicate l code.labels := by
  rw [labels, duplicate_labels_iff]
  simp only [Array.getElem?_toList]
  rfl

/-- The list of labels has no label twice if none is placed twice. -/
theorem Code.nodup_labels_iff {code : Code} : code.labels.Nodup ↔ ∀ l, ¬ code.PlacesTwice l := by
  simp only [List.nodup_iff_forall_not_duplicate, placesTwice_iff]

/-- The label that is found to be repeated has been seen before, or comes twice. -/
theorem duplicate_of_repeatedLabel? {seen labels : List Label} {l : Label}
    (h : repeatedLabel? seen labels = some l) :
    (l ∈ seen ∧ l ∈ labels) ∨ List.Duplicate l labels := by
  induction labels generalizing seen with
  | nil => cases h
  | cons l' rest ih =>
    rw [repeatedLabel?] at h
    by_cases hl : l' ∈ seen
    · rw [if_pos hl] at h
      cases h
      exact Or.inl ⟨hl, List.mem_cons_self ..⟩
    · rw [if_neg hl] at h
      rcases ih h with ⟨hseen, hmem⟩ | hdup
      · -- a label found in the rest may have been seen only just now, as the first
        rcases List.mem_cons.mp hseen with rfl | hseen
        · exact Or.inr hmem.duplicate_cons_self
        · exact Or.inl ⟨hseen, List.mem_cons_of_mem _ hmem⟩
      · exact Or.inr (hdup.duplicate_cons l')

/-! ## What a range names

A range of the exception table has three labels, and all of them have to be placed before it can be
added. -/

namespace ProtectedRange

/-- One of the three labels of the range. -/
def Names (range : ProtectedRange) (l : Label) : Prop :=
  l = range.start ∨ l = range.stop ∨ l = range.handler

/-- The handler of the range protects a position of the body. -/
def Encloses (code : Code) (range : ProtectedRange) (p : Nat) : Prop :=
  ∃ start stop : Nat, code.nodes[start]? = some (.label range.start)
    ∧ code.nodes[stop]? = some (.label range.stop) ∧ start ≤ p ∧ p < stop

end ProtectedRange

/-- Some branch or range refers to the label. -/
def Code.Refers (code : Code) (ranges : List ProtectedRange) (l : Label) : Prop :=
  code.JumpsTo l ∨ ∃ range ∈ ranges, range.Names l

namespace JoinGraph

variable {oracle : Oracle} {code : Code} {g g' : JoinGraph} {l : Label} {range : ProtectedRange}
variable {ranges : List ProtectedRange} {labels : List Label}

/-! ## Where it goes wrong

Adding targets and ranges stops at the first label that is not placed, and the error names it. Which
labels are placed does not change on the way. -/

/-- The label is placed. -/
def Knows (g : JoinGraph) (l : Label) : Prop := ∃ p, g.position l = .ok p

/-- Looking up a label that is not placed is an error that names the label. -/
theorem position_of_not_knows (h : ¬ g.Knows l) : g.position l = .error (.unknownLabel l) := by
  unfold Knows position at h
  unfold position
  cases hp : g.placements.lookup l with
  | none => rfl
  | some p =>
    rw [hp] at h
    exact absurd ⟨p, rfl⟩ h

theorem position_addJoin (g : JoinGraph) (l l' : Label) (p : Nat) :
    (g.addJoin l p).position l' = g.position l' := by
  unfold addJoin
  split <;> rfl

/-- Adding targets stops at one that is not placed, or adds them all. -/
theorem cases_of_addTargets (g : JoinGraph) (labels : List Label) :
    (∃ l ∈ labels, ¬ g.Knows l ∧ g.addTargets labels = .error (.unknownLabel l))
      ∨ (∀ l ∈ labels, g.Knows l) ∧ ∃ g', g.addTargets labels = .ok g' := by
  induction labels generalizing g with
  | nil => exact Or.inr ⟨by simp, g, rfl⟩
  | cons l rest ih =>
    rw [addTargets]
    by_cases hl : g.Knows l
    · obtain ⟨p, hp⟩ := hl
      have hknows : ∀ l', (g.addJoin l p).Knows l' ↔ g.Knows l' := fun l' => by
        unfold Knows
        rw [position_addJoin]
      rw [hp]
      -- the rest is added to a graph with one join point more, which knows the same labels
      rcases ih (g.addJoin l p) with ⟨l', hmem, hunknown, herror⟩ | ⟨hall, hok⟩
      · exact Or.inl ⟨l', List.mem_cons_of_mem _ hmem, fun h => hunknown ((hknows l').mpr h), herror⟩
      · refine Or.inr ⟨fun l' hl' => ?_, hok⟩
        rcases List.mem_cons.mp hl' with rfl | hmem
        · exact ⟨p, hp⟩
        · exact (hknows l').mp (hall l' hmem)
    · rw [position_of_not_knows hl]
      exact Or.inl ⟨l, List.mem_cons_self .., hl, rfl⟩

/-- Adding a range stops at the first of its labels that is not placed. -/
theorem cases_of_addRange (oracle : Oracle) (g : JoinGraph) (range : ProtectedRange) :
    (∃ l, range.Names l ∧ ¬ g.Knows l ∧ g.addRange oracle range = .error (.unknownLabel l))
      ∨ range.Placed g := by
  -- the three labels are looked up in this order, and the first one missing is named
  by_cases hstart : g.Knows range.start
  · by_cases hstop : g.Knows range.stop
    · by_cases hentry : g.Knows range.handler
      · exact Or.inr ⟨hstart, hstop, hentry⟩
      · obtain ⟨start, hstart⟩ := hstart
        obtain ⟨stop, hstop⟩ := hstop
        refine Or.inl ⟨range.handler, Or.inr (Or.inr rfl), hentry, ?_⟩
        rw [addRange, hstart, hstop, position_of_not_knows hentry]
        rfl
    · obtain ⟨start, hstart⟩ := hstart
      refine Or.inl ⟨range.stop, Or.inr (Or.inl rfl), hstop, ?_⟩
      rw [addRange, hstart, position_of_not_knows hstop]
      rfl
  · refine Or.inl ⟨range.start, Or.inl rfl, hstart, ?_⟩
    rw [addRange, position_of_not_knows hstart]
    rfl

/-- Adding the exception table stops at a label that is not placed, or all of them are. -/
theorem cases_of_addRanges (oracle : Oracle) (g : JoinGraph) (ranges : List ProtectedRange) :
    (∃ l, (∃ range ∈ ranges, range.Names l) ∧ ¬ g.Knows l
        ∧ g.addRanges oracle ranges = .error (.unknownLabel l))
      ∨ ∀ range ∈ ranges, range.Placed g := by
  induction ranges generalizing g with
  | nil => exact Or.inr (by simp)
  | cons range rest ih =>
    rw [addRanges]
    rcases cases_of_addRange oracle g range with ⟨l, hnames, hunknown, herror⟩ | hplaced
    · rw [herror]
      exact Or.inl ⟨l, ⟨range, List.mem_cons_self .., hnames⟩, hunknown, rfl⟩
    · obtain ⟨g₁, hg₁⟩ := exists_addRange oracle hplaced
      rw [hg₁]
      -- adding a range does not move labels, so what is unknown then is unknown now
      rcases ih g₁ with ⟨l, ⟨r, hr, hnames⟩, hunknown, herror⟩ | hall
      · refine Or.inl ⟨l, ⟨r, List.mem_cons_of_mem _ hr, hnames⟩, fun hl => hunknown ?_, herror⟩
        obtain ⟨p, hp⟩ := hl
        exact ⟨p, (position_addRange hg₁ l).trans hp⟩
      · refine Or.inr fun r hr => ?_
        rcases List.mem_cons.mp hr with rfl | hr
        · exact hplaced
        · exact (placed_iff_of_addRange hg₁).mp (hall r hr)

theorem repeatedLabel?_eq_none_iff {labels : List Label} :
    repeatedLabel? [] labels = none ↔ labels.Nodup := by
  constructor
  · exact fun h => (nodup_of_repeatedLabel? h).1
  · intro h
    cases hrepeated : repeatedLabel? [] labels with
    | none => rfl
    | some l =>
      rcases duplicate_of_repeatedLabel? hrepeated with ⟨hnil, _⟩ | hdup
      · cases hnil
      · exact absurd hdup (List.nodup_iff_forall_not_duplicate.mp h l)

/-- A body has positions for its labels if none is placed twice. -/
theorem ofPlacements_eq_ok_iff : ofPlacements code = .ok g
    ↔ code.labels.Nodup ∧ g = ⟨placementsFrom 0 code.nodes.toList, [], []⟩ := by
  unfold ofPlacements
  rw [Code.labels, ← map_fst_placementsFrom 0, ← repeatedLabel?_eq_none_iff]
  dsimp only
  split
  · next l hrepeated => simp [hrepeated]
  · next hrepeated => simp [hrepeated, eq_comm]

/-- The graph of a body is made in three steps, each of which has to succeed. -/
theorem build_eq_ok_iff : build oracle code ranges = .ok g ↔ ∃ g₀ g₁, ofPlacements code = .ok g₀
    ∧ g₀.addTargets (jumpTargets code.nodes.toList) = .ok g₁ ∧ g₁.addRanges oracle ranges = .ok g := by
  unfold build ofJumps
  cases hplaced : ofPlacements code with
  | error e => simp [bind, Except.bind]
  | ok g₀ =>
    cases htargets : g₀.addTargets (jumpTargets code.nodes.toList) with
    | error e => simp [bind, Except.bind, htargets]
    | ok g₁ => simp [bind, Except.bind, htargets]

/-! ## What the graph is

The steps that make a graph add join points and guards, and say of each label which they add. -/

/-- Adding targets makes join points of them and changes nothing else. -/
theorem addTargets_keeps (h : g.addTargets labels = .ok g') :
    g'.placements = g.placements ∧ g'.guards = g.guards
      ∧ ∀ l, g'.isJoin l = true ↔ g.isJoin l = true ∨ l ∈ labels := by
  induction labels generalizing g with
  | nil =>
    cases h
    exact ⟨rfl, rfl, by simp⟩
  | cons l rest ih =>
    rw [addTargets] at h
    cases hp : g.position l with
    | error e => rw [hp] at h; cases h
    | ok p =>
      rw [hp] at h
      obtain ⟨hplacements, hguards, hjoin⟩ := ih h
      -- a new join point leaves positions and guards as they are
      refine ⟨?_, ?_, fun l' => ?_⟩
      · rw [hplacements, addJoin]
        split <;> rfl
      · rw [hguards, addJoin]
        split <;> rfl
      · rw [hjoin, isJoin_addJoin, List.mem_cons, or_assoc]

/-- The guard stands for the range. -/
def Stands (g : JoinGraph) (range : ProtectedRange) (guard : Guard) : Prop :=
  g.position range.start = .ok guard.start ∧ g.position range.stop = .ok guard.stop
    ∧ guard.handler = range.handler

/-- Adding a range makes a join point of its handler and adds one guard. -/
theorem addRange_keeps (h : g.addRange oracle range = .ok g') :
    (∀ l, g'.isJoin l = true ↔ g.isJoin l = true ∨ l = range.handler)
      ∧ ∃ guard, g.Stands range guard ∧ g'.guards = g.guards ++ [guard] := by
  obtain ⟨start, stop, entry, j, hstart, hstop, hentry, hj, rfl⟩ := addRange_cases h
  refine ⟨fun l => ?_, ⟨start, stop, range.handler⟩, ⟨hstart, hstop, rfl⟩, ?_⟩
  · rw [← isJoin_addJoin g range.handler l entry, isJoin, join?_guarded _ _ hj]
    split
    · next hl =>
      rw [hl, isJoin, hj]
      rfl
    · rfl
  · show (g.addJoin range.handler entry).guards ++ _ = _
    rw [addJoin]
    split <;> rfl

/-- Adding the exception table makes join points of its handlers and adds a guard for each range. -/
theorem addRanges_keeps (h : g.addRanges oracle ranges = .ok g') :
    (∀ l, g'.position l = g.position l)
      ∧ (∀ l, g'.isJoin l = true ↔ g.isJoin l = true ∨ ∃ range ∈ ranges, range.handler = l)
      ∧ ∀ guard, guard ∈ g'.guards ↔ guard ∈ g.guards ∨ ∃ range ∈ ranges, g.Stands range guard := by
  induction ranges generalizing g with
  | nil =>
    cases h
    exact ⟨fun _ => rfl, by simp, by simp⟩
  | cons range rest ih =>
    rw [addRanges] at h
    cases hrange : g.addRange oracle range with
    | error e => rw [hrange] at h; cases h
    | ok g₁ =>
      rw [hrange] at h
      obtain ⟨hposition, hjoin, hguards⟩ := ih h
      obtain ⟨hjoin₁, guard₁, hstands, hguards₁⟩ := addRange_keeps hrange
      have hstands₁ : ∀ r guard, g₁.Stands r guard ↔ g.Stands r guard := fun r guard => by
        simp only [Stands, position_addRange hrange]
      refine ⟨fun l => (hposition l).trans (position_addRange hrange l), fun l => ?_, fun guard => ?_⟩
      · rw [hjoin, hjoin₁, List.exists_mem_cons_iff, or_assoc, eq_comm (a := l)]
      · -- a range has one guard, for its labels have one position
        have hunique : g.Stands range guard ↔ guard = guard₁ := by
          constructor
          · rintro ⟨hstart, hstop, hhandler⟩
            obtain ⟨hstart₁, hstop₁, hhandler₁⟩ := hstands
            rw [hstart] at hstart₁
            rw [hstop] at hstop₁
            cases guard
            cases guard₁
            cases hstart₁
            cases hstop₁
            simp only at hhandler hhandler₁
            rw [hhandler, hhandler₁]
          · rintro rfl
            exact hstands
        simp only [hguards, hguards₁, hstands₁, List.mem_append, List.mem_singleton,
          List.exists_mem_cons_iff, hunique, or_assoc]

/-- The graph knows where each label of the body is, has the targets of its jumps and the handlers
for join points, and each handler protects what its ranges enclose. -/
structure Reflects (code : Code) (ranges : List ProtectedRange) (g : JoinGraph) : Prop where
  placed : ∀ l p, g.position l = .ok p ↔ code.nodes[p]? = some (.label l)
  isJoin : ∀ l, g.isJoin l = true ↔ code.JumpsTo l ∨ ∃ range ∈ ranges, range.handler = l
  protects : ∀ l p, l ∈ g.protectors p
    ↔ ∃ range ∈ ranges, range.handler = l ∧ range.Encloses code p

/-- A handler protects a position that lies within one of its guards. -/
theorem mem_protectors_iff {p : Nat} :
    l ∈ g.protectors p ↔ ∃ guard ∈ g.guards, guard.handler = l ∧ guard.start ≤ p ∧ p < guard.stop := by
  rw [protectors, List.mem_eraseDups, List.mem_map]
  constructor
  · rintro ⟨guard, hmem, rfl⟩
    obtain ⟨hguard, hcovers⟩ := List.mem_filter.mp hmem
    obtain ⟨hstart, hstop⟩ := of_decide_eq_true hcovers
    exact ⟨guard, hguard, rfl, hstart, hstop⟩
  · rintro ⟨guard, hguard, rfl, hstart, hstop⟩
    exact ⟨guard, List.mem_filter.mpr ⟨hguard, decide_eq_true ⟨hstart, hstop⟩⟩, rfl⟩

/-- The graph that is made for a body reflects its labels, jumps and ranges. -/
theorem reflects_of_build (h : build oracle code ranges = .ok g) : g.Reflects code ranges := by
  obtain ⟨g₀, g₁, hplaced, htargets, hranges⟩ := build_eq_ok_iff.mp h
  have hprepared := prepared_ofPlacements hplaced
  obtain ⟨hplacements, hguards, hjoin⟩ := addTargets_keeps htargets
  obtain ⟨hposition, hjoin', hguards'⟩ := addRanges_keeps hranges
  -- to begin with there are no join points and no guards
  have hempty : g₀.joins = [] ∧ g₀.guards = [] := by
    rw [(ofPlacements_eq_ok_iff.mp hplaced).2]
    exact ⟨rfl, rfl⟩
  have hposition₁ : ∀ l p, g₁.position l = .ok p ↔ code.nodes[p]? = some (.label l) := fun l p => by
    rw [← hprepared.placed, position, position, hplacements]
  refine ⟨fun l p => ?_, fun l => ?_, fun l p => ?_⟩
  · rw [hposition]
    exact hposition₁ l p
  · have hnone : g₀.isJoin l = false := by
      rw [isJoin, join?, hempty.1]
      rfl
    rw [hjoin', hjoin, hnone, Code.jumpsTo_iff_mem_jumpTargets]
    simp
  · rw [mem_protectors_iff]
    constructor
    · rintro ⟨guard, hguard, rfl, hstart, hstop⟩
      rw [hguards', hguards, hempty.2] at hguard
      rcases hguard with hguard | ⟨range, hrange, hfrom, hto, hhandler⟩
      · cases hguard
      · exact ⟨range, hrange, hhandler.symm, guard.start, guard.stop, (hposition₁ _ _).mp hfrom,
          (hposition₁ _ _).mp hto, hstart, hstop⟩
    · rintro ⟨range, hrange, rfl, start, stop, hfrom, hto, hstart, hstop⟩
      refine ⟨⟨start, stop, range.handler⟩, ?_, rfl, hstart, hstop⟩
      rw [hguards']
      exact Or.inr ⟨range, hrange, (hposition₁ _ _).mpr hfrom, (hposition₁ _ _).mpr hto, rfl⟩

/-- Finding the join points of a body ends with the error that its labels call for, or with none. -/
theorem cases_of_build (oracle : Oracle) (code : Code) (ranges : List ProtectedRange) :
    (∃ l, code.PlacesTwice l ∧ build oracle code ranges = .error (.duplicateLabel l))
      ∨ (∀ l, ¬ code.PlacesTwice l)
        ∧ ((∃ l, code.Refers ranges l ∧ ¬ code.Places l
              ∧ build oracle code ranges = .error (.unknownLabel l))
          ∨ (∀ l, code.Refers ranges l → code.Places l) ∧ ∃ g, build oracle code ranges = .ok g) := by
  -- labels placed twice come first, then the targets of jumps, then the exception table
  cases hrepeated : repeatedLabel? [] ((placementsFrom 0 code.nodes.toList).map (·.1)) with
  | some l =>
    left
    refine ⟨l, ?_, ?_⟩
    · rcases duplicate_of_repeatedLabel? hrepeated with ⟨hnil, _⟩ | hdup
      · cases hnil
      · rw [map_fst_placementsFrom] at hdup
        exact Code.placesTwice_iff.mpr hdup
    · unfold build ofJumps ofPlacements
      simp only [hrepeated]
      rfl
  | none =>
    right
    have hnodup := repeatedLabel?_eq_none_iff.mp hrepeated
    rw [map_fst_placementsFrom] at hnodup
    have hplaced := ofPlacements_eq_ok_iff.mpr ⟨hnodup, rfl⟩
    generalize (⟨placementsFrom 0 code.nodes.toList, [], []⟩ : JoinGraph) = g₀ at hplaced
    -- from here on only the positions matter, and these are those of the body
    have hknows : ∀ l, g₀.Knows l ↔ code.Places l := fun l =>
      exists_congr ((prepared_ofPlacements hplaced).placed l)
    refine ⟨Code.nodup_labels_iff.mp hnodup, ?_⟩
    rcases cases_of_addTargets g₀ (jumpTargets code.nodes.toList) with
      ⟨l, hl, hunknown, herror⟩ | ⟨hjumps, g₁, htargets⟩
    · refine Or.inl ⟨l, Or.inl (Code.jumpsTo_iff_mem_jumpTargets.mpr hl),
        fun h => hunknown ((hknows l).mpr h), ?_⟩
      unfold build ofJumps
      rw [hplaced]
      simp only [bind, Except.bind, herror]
    · have hknows₁ : ∀ l, g₁.Knows l ↔ code.Places l := fun l => by
        rw [← hknows, Knows, Knows, position, position, (addTargets_keeps htargets).1]
      -- the jumps are fine; what is left may go wrong in the exception table
      rcases cases_of_addRanges oracle g₁ ranges with ⟨l, hnames, hunknown, herror⟩ | hall
      · refine Or.inl ⟨l, Or.inr hnames, fun h => hunknown ((hknows₁ l).mpr h), ?_⟩
        unfold build ofJumps
        rw [hplaced]
        simp only [bind, Except.bind, htargets, herror]
      · obtain ⟨g, hranges⟩ := exists_addRanges_iff.mpr hall
        refine Or.inr ⟨?_, g, build_eq_ok_iff.mpr ⟨g₀, g₁, hplaced, htargets, hranges⟩⟩
        rintro l (hl | ⟨range, hrange, hl⟩)
        · exact (hknows l).mp (hjumps l (Code.jumpsTo_iff_mem_jumpTargets.mp hl))
        · obtain ⟨hstart, hstop, hentry⟩ := hall range hrange
          rw [← hknows₁]
          rcases hl with rfl | rfl | rfl
          · exact hstart
          · exact hstop
          · exact hentry

/-- A body has a graph exactly if no label is placed twice and every label that is referred to is
placed. -/
theorem exists_build_iff : (∃ g, build oracle code ranges = .ok g)
    ↔ (∀ l, ¬ code.PlacesTwice l) ∧ ∀ l, code.Refers ranges l → code.Places l := by
  rcases cases_of_build oracle code ranges with
    ⟨l, htwice, hbuild⟩ | ⟨honce, ⟨l, hrefers, hunplaced, hbuild⟩ | ⟨hall, hbuild⟩⟩
  · rw [hbuild]
    exact ⟨nofun, fun h => (h.1 l htwice).elim⟩
  · rw [hbuild]
    exact ⟨nofun, fun h => (hunplaced (h.2 l hrefers)).elim⟩
  · exact ⟨fun _ => ⟨honce, hall⟩, fun _ => hbuild⟩

end JoinGraph

end JvmFrames
