import JvmFrames.Analysis.Directive
import JvmFrames.Proofs.Compression

/-!
# Anchors

The anchor of an instruction is the last join label of the marks right before it. Going through a
body, `anchorsFrom` carries it along; here it is a function of the position (`JoinGraph.anchorAt`),
which can be told from the body alone (`anchorAt_eq_some_iff`) and says what the anchors are
(`mem_anchors_iff`). They come in order of position and stand before instructions (`Spots`), and so
do those of them that were reached.
-/

namespace JvmFrames

/-! ## The anchor at a position

Two ways to say which label is the anchor: step by step from the front (`anchorAt`), and by what
stands between the label and the position (`Anchored`). -/

namespace JoinGraph

variable {g : JoinGraph} {code : Code} {p q position : Nat} {l : Label} {node : Node}

/-- Neither executed nor a place where frames merge. -/
def skips (g : JoinGraph) : Node → Bool
  | .label l => !g.isJoin l
  | .frame _ => true
  | .insn _ | .branch _ => false

/-- The anchor behind a node, given the one before it. -/
def anchorAfter (g : JoinGraph) (anchor : Option Label) : Option Node → Option Label
  | some (.label l) => if g.isJoin l then some l else anchor
  | some (.frame _) => anchor
  | some (.insn _) | some (.branch _) | none => none

/-- The last join label before a position, if no instruction has come since. -/
def anchorAt (g : JoinGraph) (code : Code) : Nat → Option Label
  | 0 => none
  | p + 1 => g.anchorAfter (g.anchorAt code p) code.nodes[p]?

/-- A join label is placed at `p`, and everything between it and `q` is skipped. -/
structure Anchored (g : JoinGraph) (code : Code) (l : Label) (p q : Nat) : Prop where
  node : code.nodes[p]? = some (.label l)
  join : g.isJoin l = true
  lt : p < q
  skipped : ∀ r, p < r → r < q → ∃ node, code.nodes[r]? = some node ∧ g.skips node = true

namespace Anchored

/-- Where something is not skipped, the anchor behind it can only be that very node. -/
theorem eq_of_not_skips (h : g.Anchored code l p (q + 1))
    (hskips : ∀ node, code.nodes[q]? = some node → g.skips node = false) : p = q := by
  rcases Nat.lt_or_eq_of_le (Nat.le_of_lt_succ h.lt) with hp | hp
  · obtain ⟨node, hnode, hskipped⟩ := h.skipped q hp (Nat.lt_succ_self q)
    rw [hskips node hnode] at hskipped
    cases hskipped
  · exact hp

/-- What is skipped changes no anchor. -/
theorem succ_iff (hnode : code.nodes[q]? = some node) (hskips : g.skips node = true) :
    g.Anchored code l p (q + 1) ↔ g.Anchored code l p q := by
  constructor
  · intro h
    refine ⟨h.node, h.join, ?_, fun r hpr hrq => h.skipped r hpr (Nat.lt_succ_of_lt hrq)⟩
    rcases Nat.lt_or_eq_of_le (Nat.le_of_lt_succ h.lt) with hp | rfl
    · exact hp
    · -- a join label is not skipped
      have hlabel := h.node
      rw [hnode] at hlabel
      cases hlabel
      rw [skips, h.join] at hskips
      cases hskips
  · intro h
    refine ⟨h.node, h.join, Nat.lt_succ_of_lt h.lt, fun r hpr hrq => ?_⟩
    rcases Nat.lt_or_eq_of_le (Nat.le_of_lt_succ hrq) with hr | rfl
    · exact h.skipped r hpr hr
    · exact ⟨node, hnode, hskips⟩

end Anchored

/-- The anchor at a position is where the body says. -/
theorem anchorAt_eq_some_iff : g.anchorAt code q = some l ↔ ∃ p, g.Anchored code l p q := by
  induction q with
  | zero => exact ⟨nofun, fun ⟨p, h⟩ => absurd h.lt (Nat.not_lt_zero p)⟩
  | succ q ih =>
    rw [anchorAt]
    cases hnode : code.nodes[q]? with
    | none =>
      refine ⟨nofun, fun ⟨p, h⟩ => ?_⟩
      have hp := h.eq_of_not_skips fun node hsome => by rw [hnode] at hsome; cases hsome
      rw [← hp, h.node] at hnode
      cases hnode
    | some node =>
      -- an instruction ends the marks before it
      have hstop : node.isInstruction = true → ¬ ∃ p, g.Anchored code l p (q + 1) := by
        rintro hinsn ⟨p, h⟩
        have hp := h.eq_of_not_skips fun node' hsome => by
          rw [hnode] at hsome
          cases hsome
          cases node with
          | insn i => rfl
          | branch b => rfl
          | label l => cases hinsn
          | frame f => cases hinsn
        rw [← hp, h.node] at hnode
        cases hnode
        cases hinsn
      cases node with
      | frame f =>
        have hskips : g.skips (.frame f) = true := rfl
        simp only [anchorAfter, ih, Anchored.succ_iff hnode hskips]
      | insn i => exact ⟨nofun, fun h => absurd h (hstop rfl)⟩
      | branch b => exact ⟨nofun, fun h => absurd h (hstop rfl)⟩
      | label l' =>
        cases hjoin : g.isJoin l' with
        | false =>
          have hskips : g.skips (.label l') = true := by rw [skips, hjoin]; rfl
          simp only [anchorAfter, hjoin, Bool.false_eq_true, if_false, ih,
            Anchored.succ_iff hnode hskips]
        | true =>
          simp only [anchorAfter, hjoin, if_true, Option.some.injEq]
          constructor
          · rintro rfl
            exact ⟨q, hnode, hjoin, Nat.lt_succ_self q, fun r hqr hrq => by omega⟩
          · rintro ⟨p, h⟩
            have hp := h.eq_of_not_skips fun node' hsome => by
              rw [hnode] at hsome
              cases hsome
              rw [skips, hjoin]
              rfl
            rw [← hp, h.node] at hnode
            cases hnode
            rfl

end JoinGraph

/-! ## The anchors of a body

Collecting the anchors goes through the nodes once and carries the last join label along. The
induction is on the nodes that are left, and what is carried along is the anchor at the position
reached. -/

/-- Something is executed at a position. -/
def Code.Executes (code : Code) (p : Nat) : Prop :=
  ∃ node, code.nodes[p]? = some node ∧ node.isInstruction = true

section

variable {g : JoinGraph} {code : Code} {q : Nat} {l : Label}

/-- The anchors from a position on are those of the instructions there. -/
theorem mem_anchorsFrom_iff {position : Nat} {rest : List Node}
    (hrest : code.nodes.toList.drop position = rest) :
    (q, l) ∈ anchorsFrom g position (g.anchorAt code position) rest
      ↔ position ≤ q ∧ code.Executes q ∧ g.anchorAt code q = some l := by
  induction rest generalizing position with
  | nil =>
    refine ⟨nofun, fun ⟨hq, ⟨node, hnode, _⟩, _⟩ => ?_⟩
    -- there is nothing from `position` on
    have hsize := List.drop_eq_nil_iff.mp hrest
    rw [← Array.getElem?_toList, List.getElem?_eq_none (by omega)] at hnode
    cases hnode
  | cons node rest ih =>
    have hnode : code.nodes[position]? = some node := by
      rw [← Array.getElem?_toList, ← List.head?_drop, hrest]
      rfl
    have hnext : code.nodes.toList.drop (position + 1) = rest := by
      rw [← List.tail_drop, hrest]
      rfl
    have hlater := ih hnext
    rw [JoinGraph.anchorAt, hnode] at hlater
    -- what is not executed is no anchored instruction
    have hskip : node.isInstruction = false →
        ((position ≤ q ∧ code.Executes q ∧ g.anchorAt code q = some l)
          ↔ position + 1 ≤ q ∧ code.Executes q ∧ g.anchorAt code q = some l) := by
      intro hmark
      refine ⟨fun ⟨hq, hexec, hanchor⟩ => ⟨?_, hexec, hanchor⟩,
        fun ⟨hq, hexec⟩ => ⟨Nat.le_of_succ_le hq, hexec⟩⟩
      rcases Nat.lt_or_eq_of_le hq with hlt | rfl
      · exact hlt
      · obtain ⟨node', hnode', hinsn⟩ := hexec
        rw [hnode] at hnode'
        cases hnode'
        rw [hmark] at hinsn
        cases hinsn
    -- what is executed has the anchor that was carried along to it
    have hinsn : node.isInstruction = true →
        ((position ≤ q ∧ code.Executes q ∧ g.anchorAt code q = some l)
          ↔ (position = q ∧ g.anchorAt code position = some l)
            ∨ position + 1 ≤ q ∧ code.Executes q ∧ g.anchorAt code q = some l) := by
      intro hnodeInsn
      constructor
      · rintro ⟨hq, hexec, hanchor⟩
        rcases Nat.lt_or_eq_of_le hq with hlt | rfl
        · exact Or.inr ⟨hlt, hexec, hanchor⟩
        · exact Or.inl ⟨rfl, hanchor⟩
      · rintro (⟨rfl, hanchor⟩ | ⟨hq, hexec, hanchor⟩)
        · exact ⟨Nat.le_refl _, ⟨node, hnode, hnodeInsn⟩, hanchor⟩
        · exact ⟨Nat.le_of_succ_le hq, hexec, hanchor⟩
    cases node with
    | label l' =>
      rw [hskip rfl, ← hlater]
      rfl
    | frame f =>
      rw [hskip rfl, ← hlater]
      rfl
    | insn i =>
      rw [hinsn rfl, ← hlater]
      cases g.anchorAt code position with
      | none => simp [anchorsFrom, JoinGraph.anchorAfter]
      | some l' => simp [anchorsFrom, JoinGraph.anchorAfter, eq_comm]
    | branch b =>
      rw [hinsn rfl, ← hlater]
      cases g.anchorAt code position with
      | none => simp [anchorsFrom, JoinGraph.anchorAfter]
      | some l' => simp [anchorsFrom, JoinGraph.anchorAfter, eq_comm]

/-- An anchor is collected for each instruction that has one. -/
theorem mem_anchors_iff :
    (q, l) ∈ anchors g code ↔ code.Executes q ∧ g.anchorAt code q = some l := by
  have hall : (q, l) ∈ anchorsFrom g 0 (g.anchorAt code 0) code.nodes.toList
      ↔ 0 ≤ q ∧ code.Executes q ∧ g.anchorAt code q = some l := mem_anchorsFrom_iff List.drop_zero
  exact hall.trans (and_iff_right (Nat.zero_le q))

end

/-! ## Their order

Positions are collected from the front, so they come in order; that they stand before instructions
is needed where frames are put into the body. -/

/-- Positions of instructions in a list of nodes, in order; the list starts at `position`. -/
inductive Spots : Nat → List Node → List Nat → Prop where
  | empty (position : Nat) (nodes : List Node) : Spots position nodes []
  | later {position : Nat} (node : Node) {rest : List Node} {spots : List Nat}
      (h : Spots (position + 1) rest spots) : Spots position (node :: rest) spots
  | here {position : Nat} {node : Node} (hnode : node.isInstruction = true) {rest : List Node}
      {spots : List Nat} (h : Spots (position + 1) rest spots) :
      Spots position (node :: rest) (position :: spots)

namespace Spots

variable {position : Nat} {nodes : List Node} {spots spots' : List Nat}

/-- No position comes before the place where the list starts. -/
theorem le (h : Spots position nodes spots) : ∀ p ∈ spots, position ≤ p := by
  induction h with
  | empty _ _ => exact fun p hp => by cases hp
  | later _ _ ih => exact fun p hp => Nat.le_of_succ_le (ih p hp)
  | here _ _ ih =>
    intro p hp
    rcases List.mem_cons.mp hp with rfl | hp
    · exact Nat.le_refl _
    · exact Nat.le_of_succ_le (ih p hp)

theorem pairwise (h : Spots position nodes spots) : spots.Pairwise (· < ·) := by
  induction h with
  | empty _ _ => exact .nil
  | later _ _ ih => exact ih
  | here _ h ih => exact .cons (fun p hp => h.le p hp) ih

/-- Any of the positions, in the same order. -/
theorem sublist (h : Spots position nodes spots) (hsub : spots'.Sublist spots) :
    Spots position nodes spots' := by
  induction h generalizing spots' with
  | empty position nodes =>
    rw [List.sublist_nil.mp hsub]
    exact .empty position nodes
  | later node _ ih => exact .later node (ih hsub)
  | here hnode h ih =>
    cases hsub with
    | cons _ hsub => exact .later _ (ih hsub)
    | cons_cons _ hsub => exact .here hnode (ih hsub)

/-- Anchors are collected in order, before instructions. -/
theorem anchorsFrom (g : JoinGraph) (position : Nat) (anchor : Option Label) (nodes : List Node) :
    Spots position nodes ((anchorsFrom g position anchor nodes).map (·.1)) := by
  fun_induction JvmFrames.anchorsFrom g position anchor nodes with
  | case1 position _ => exact .empty position []
  | case2 _ _ l _ ih => exact .later (.label l) ih
  | case3 _ _ f _ ih => exact .later (.frame f) ih
  | case4 _ i _ ih => exact .later (.insn i) ih
  | case5 _ i _ l ih => exact .here rfl ih
  | case6 _ b _ ih => exact .later (.branch b) ih
  | case7 _ b _ l ih => exact .here rfl ih

end Spots

/-- The anchors that were reached stand before instructions, in order. -/
theorem spots_reachedAnchors (g : JoinGraph) (code : Code) :
    Spots 0 code.nodes.toList ((reachedAnchors g code).map (·.1)) := by
  -- those that were reached are some of the anchors, in the same order
  have hsub : ∀ list : List (Nat × Label), ((list.filterMap fun pair =>
      (g.frameAt? pair.2).map fun f => (pair.1, pair.2, f.snapshot)).map (·.1)).Sublist
        (list.map (·.1)) := by
    intro list
    induction list with
    | nil => exact .slnil
    | cons first rest ih =>
      cases hf : g.frameAt? first.2 with
      | none =>
        rw [List.filterMap_cons_none (by rw [hf, Option.map_none]), List.map_cons]
        exact ih.cons first.1
      | some f =>
        rw [List.filterMap_cons_some (b := (first.1, first.2, f.snapshot))
          (by rw [hf, Option.map_some])]
        exact ih.cons_cons first.1
  exact (Spots.anchorsFrom g 0 none code.nodes.toList).sublist (hsub (anchors g code))

end JvmFrames
