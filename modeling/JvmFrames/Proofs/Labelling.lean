import JvmFrames.Proofs.Edits

/-!
# Labels put before allocations

What labelling the allocations of a body adds is a label right before each `new` that had none,
handed out in order. Done a second time it adds nothing (`labelAllocations_labelAllocations`), and
where no label is placed twice, the labels that were handed out can be told apart and taken out
again (`Code.filter_labelAllocations`).
-/

namespace JvmFrames

/-! ## One node

Labelling a list does one of two things at each node. `labelAllocations_induction` is the induction
that follows it, without the bookkeeping of the definition. -/

theorem labelAllocations_new (next : Nat) (c : ClassName) (rest : List Node) :
    labelAllocations false next (.insn (.new c) :: rest)
      = (.label ⟨next⟩ :: .insn (.new c) :: (labelAllocations false (next + 1) rest).1,
        (labelAllocations false (next + 1) rest).2) := by
  rw [labelAllocations]

/-- Any node is left as it is, if it is not a `new` without a label. -/
theorem labelAllocations_cons {afterLabel : Bool} {node : Node} (next : Nat) (rest : List Node)
    (hnode : ∀ c, node = .insn (.new c) → afterLabel = true) :
    labelAllocations afterLabel next (node :: rest)
      = (node :: (labelAllocations node.label?.isSome next rest).1,
        (labelAllocations node.label?.isSome next rest).2) := by
  rw [labelAllocations]
  intro c hnew hafter
  rw [hnode c hnew] at hafter
  cases hafter

/-- Labelling the allocations of a list does one or the other at each node. -/
theorem labelAllocations_induction {motive : Bool → Nat → List Node → Prop}
    (hnil : ∀ afterLabel next, motive afterLabel next [])
    (hnew : ∀ next c rest, motive false (next + 1) rest →
      motive false next (.insn (.new c) :: rest))
    (hcons : ∀ afterLabel next node rest,
      (∀ c, node = .insn (.new c) → afterLabel = true) →
      motive node.label?.isSome next rest → motive afterLabel next (node :: rest))
    (afterLabel : Bool) (next : Nat) (nodes : List Node) : motive afterLabel next nodes := by
  fun_induction labelAllocations afterLabel next nodes with
  | case1 afterLabel next => exact hnil afterLabel next
  | case2 next rest c _ _ _ ih => exact hnew next c rest ih
  | case3 afterLabel next rest node _ _ _ hnode ih =>
    refine hcons afterLabel next node rest (fun c hc => ?_) ih
    -- the equation for other nodes applies to a `new` only behind a label
    cases afterLabel with
    | false => exact (hnode c hc rfl).elim
    | true => rfl

/-! ## A second time

The result of labelling has a label right before each `new`. -/

/-- Where every `new` has its label, nothing is put in and no label is handed out. -/
theorem labelAllocations_labelAllocations (afterLabel : Bool) (next next' : Nat)
    (nodes : List Node) :
    labelAllocations afterLabel next' (labelAllocations afterLabel next nodes).1
      = ((labelAllocations afterLabel next nodes).1, next') := by
  induction afterLabel, next, nodes using labelAllocations_induction with
  | hnil afterLabel next => rfl
  | hnew next c rest ih =>
    -- the label that was put in comes first, and the `new` is behind a label now
    have hbehind : ∀ rest', labelAllocations false next' rest' = (rest', next') →
        labelAllocations true next' (.insn (.new c) :: rest') = (.insn (.new c) :: rest', next') := by
      intro rest' hrest
      rw [labelAllocations_cons next' rest' (fun _ _ => rfl)]
      show (_ :: (labelAllocations false next' rest').1, (labelAllocations false next' rest').2) = _
      rw [hrest]
    rw [labelAllocations_new, labelAllocations_cons next' _ (by nofun)]
    show (_ :: (labelAllocations true next' _).1, (labelAllocations true next' _).2) = _
    rw [hbehind _ ih]
  | hcons afterLabel next node rest hnode ih =>
    rw [labelAllocations_cons next rest hnode, labelAllocations_cons next' _ hnode, ih]

/-- A body that has been labelled is not changed by labelling. -/
theorem Code.labelAllocations_labelAllocations (code : Code) :
    code.labelAllocations.labelAllocations = code.labelAllocations := by
  have hagain := JvmFrames.labelAllocations_labelAllocations false code.nextLabel
    code.labelAllocations.nextLabel code.nodes.toList
  unfold Code.labelAllocations at hagain ⊢
  simp only [hagain]

/-! ## The labels that are handed out

Labels are handed out from a number on, each number once. Those of the body itself may clash with
them, but then a label is placed twice. -/

/-- Numbers only go up. -/
theorem le_labelAllocations (afterLabel : Bool) (next : Nat) (nodes : List Node) :
    next ≤ (labelAllocations afterLabel next nodes).2 := by
  induction afterLabel, next, nodes using labelAllocations_induction with
  | hnil afterLabel next => exact Nat.le_refl next
  | hnew next c rest ih =>
    rw [labelAllocations_new]
    exact Nat.le_of_succ_le ih
  | hcons afterLabel next node rest hnode ih =>
    rw [labelAllocations_cons next rest hnode]
    exact ih

/-- The labels of the result are those that were there, and one for each number handed out. -/
theorem perm_labels_labelAllocations (afterLabel : Bool) (next : Nat) (nodes : List Node) :
    ((labelAllocations afterLabel next nodes).1.filterMap Node.label?).Perm
      (nodes.filterMap Node.label?
        ++ (List.range' next ((labelAllocations afterLabel next nodes).2 - next)).map Label.mk) := by
  induction afterLabel, next, nodes using labelAllocations_induction with
  | hnil afterLabel next =>
    show List.Perm [] (_ ++ (List.range' next (next - next)).map Label.mk)
    rw [Nat.sub_self]
    exact .nil
  | hnew next c rest ih =>
    rw [labelAllocations_new]
    have hle := le_labelAllocations false (next + 1) rest
    generalize labelAllocations false (next + 1) rest = result at ih hle
    obtain ⟨rest', last⟩ := result
    -- the new label is in front on the left, and in front of those handed out later on the right
    have hcount : last - next = last - (next + 1) + 1 := by omega
    show List.Perm (⟨next⟩ :: rest'.filterMap Node.label?)
      (rest.filterMap Node.label? ++ (List.range' next (last - next)).map Label.mk)
    rw [hcount, List.range'_succ, List.map_cons]
    exact (ih.cons _).trans List.perm_middle.symm
  | hcons afterLabel next node rest hnode ih =>
    rw [labelAllocations_cons next rest hnode]
    cases node with
    | label l => exact ih.cons l
    | insn i => exact ih
    | branch b => exact ih
    | frame f => exact ih

/-- A node that places a label with a number from `lo` up to `hi`. -/
def Node.placesIn (lo hi : Nat) (node : Node) : Bool :=
  node.label?.any fun l => lo ≤ l.id ∧ l.id < hi

/-- Taking out the labels that were handed out, and perhaps others that were not there, gives the
nodes back. -/
theorem filter_labelAllocations {lo hi : Nat} {afterLabel : Bool} {next : Nat} {nodes : List Node}
    (hlo : lo ≤ next) (hhi : (labelAllocations afterLabel next nodes).2 ≤ hi)
    (hnodes : ∀ node ∈ nodes, node.placesIn lo hi = false) :
    (labelAllocations afterLabel next nodes).1.filter (fun node => !node.placesIn lo hi) = nodes := by
  induction afterLabel, next, nodes using labelAllocations_induction with
  | hnil afterLabel next => rfl
  | hnew next c rest ih =>
    rw [labelAllocations_new] at hhi ⊢
    have hlast := le_labelAllocations false (next + 1) rest
    -- the label that was handed out is within the bounds and is dropped again
    have hin : (Node.label ⟨next⟩).placesIn lo hi = true :=
      decide_eq_true ⟨hlo, Nat.lt_of_lt_of_le hlast hhi⟩
    have hnew := hnodes _ (List.mem_cons_self ..)
    rw [List.filter_cons_of_neg (by simp [hin]), List.filter_cons_of_pos (by simp [hnew]),
      ih (by omega) hhi fun node hnode => hnodes node (List.mem_cons_of_mem _ hnode)]
  | hcons afterLabel next node rest hnode ih =>
    rw [labelAllocations_cons next rest hnode] at hhi ⊢
    have hhead := hnodes _ (List.mem_cons_self ..)
    rw [List.filter_cons_of_pos (by simp [hhead]),
      ih hlo hhi fun node hnode => hnodes node (List.mem_cons_of_mem _ hnode)]

namespace Code

/-- The labels of a body that has been labelled are its own and one for each number handed out. -/
theorem perm_labels_labelAllocations (code : Code) :
    code.labelAllocations.labels.Perm (code.labels
      ++ (List.range' code.nextLabel (code.labelAllocations.nextLabel - code.nextLabel)).map
        Label.mk) :=
  JvmFrames.perm_labels_labelAllocations false code.nextLabel code.nodes.toList

/-- If no label is placed twice, the labels that were handed out are told by their numbers. -/
theorem filter_labelAllocations {code : Code} (h : code.labelAllocations.labels.Nodup) :
    code.labelAllocations.nodes.toList.filter
      (fun node => !node.placesIn code.nextLabel code.labelAllocations.nextLabel)
      = code.nodes.toList := by
  refine JvmFrames.filter_labelAllocations (Nat.le_refl _) (Nat.le_refl _) fun node hnode => ?_
  have hdisjoint := (List.nodup_append.mp (code.perm_labels_labelAllocations.nodup_iff.mp h)).2.2
  cases node with
  | label l =>
    apply decide_eq_false
    rintro ⟨hlo, hhi⟩
    -- a label of the given body with such a number would be placed twice
    have hhi : l.id < code.labelAllocations.nextLabel := hhi
    refine hdisjoint l (List.mem_filterMap.mpr ⟨_, hnode, rfl⟩) l ?_ rfl
    exact List.mem_map.mpr ⟨l.id, List.mem_range'_1.mpr ⟨hlo, by omega⟩, rfl⟩
  | insn i => rfl
  | branch b => rfl
  | frame f => rfl

end Code

end JvmFrames
