import JvmFrames.Analysis
import JvmFrames.Proofs.JoinGraph.Built

/-!
# What analysis does to a body

Labels are put before allocations, and frames before instructions if they are asked for. The first
leaves a label right before every `new`. The second puts at most one frame before each node
(`Framed`), so that whatever stood right before a node is still there, behind one frame at most.
-/

namespace JvmFrames

/-! ## Labels before allocations

Labelling goes through the nodes with a flag that says whether the last one was a label. The
induction takes the node before the list along for this flag. -/

/-- After labelling, a label is right before each `new`, if the node before the list counts as
told. -/
theorem exists_label_before_new {afterLabel : Bool} {next p : Nat} {nodes : List Node} {c : ClassName}
    (before : Node) (hbefore : before.label?.isSome = afterLabel)
    (h : (labelAllocations afterLabel next nodes).1[p]? = some (.insn (.new c))) :
    ∃ l, (before :: (labelAllocations afterLabel next nodes).1)[p]? = some (.label l) := by
  fun_induction labelAllocations afterLabel next nodes generalizing p before with
  | case1 => cases h
  | case2 next rest c' rest' last heq ih =>
    rw [heq] at ih
    cases p with
    | zero => cases h
    | succ p =>
      cases p with
      | zero => exact ⟨⟨next⟩, rfl⟩
      | succ p => exact ih _ rfl h
  | case3 afterLabel next node rest rest' last heq hnew ih =>
    rw [heq] at ih
    cases p with
    | zero =>
      -- a `new` is left as it is only behind a label
      cases h
      cases afterLabel with
      | false => exact absurd rfl (hnew c rfl)
      | true =>
        cases before with
        | label l => exact ⟨l, rfl⟩
        | _ => cases hbefore
    | succ p => exact ih _ rfl h

/-- Every `new` of a body that is analyzed has a label right before it. -/
theorem Analysis.exists_siteBefore?_prepare {settings : Settings} {code : Code} {p : Nat}
    {c : ClassName} (h : (prepare settings code).nodes[p]? = some (.insn (.new c))) :
    ∃ s, (prepare settings code).siteBefore? p = some s := by
  rw [← Array.getElem?_toList] at h
  have hstart : (Node.insn .nop).label?.isSome = false := rfl
  obtain ⟨l, hl⟩ := exists_label_before_new (.insn .nop) hstart h
  cases p with
  | zero => cases hl
  | succ p =>
    have hl : (prepare settings code).nodes.toList[p]? = some (.label l) := hl
    rw [Array.getElem?_toList] at hl
    exact ⟨l, by rw [Code.siteBefore?, hl]; rfl⟩

/-! ## Labels are placed once

A join graph is built only for bodies in which no label comes twice. From then on a label stands for
a position. -/

def Code.labels (code : Code) : List Label := code.nodes.toList.filterMap Node.label?

theorem map_fst_placementsFrom (index : Nat) (nodes : List Node) :
    (placementsFrom index nodes).map (·.1) = nodes.filterMap Node.label? := by
  induction nodes generalizing index with
  | nil => rfl
  | cons node rest ih =>
    cases node with
    | label l => exact congrArg (l :: ·) (ih (index + 1))
    | insn i => exact ih (index + 1)
    | branch b => exact ih (index + 1)
    | frame f => exact ih (index + 1)

/-- In a body that has a join graph no label is placed twice. -/
theorem JoinGraph.nodup_labels_of_build {oracle : Oracle} {code : Code}
    {ranges : List ProtectedRange} {g : JoinGraph} (h : build oracle code ranges = .ok g) :
    code.labels.Nodup := by
  unfold build ofJumps ofPlacements at h
  rw [Code.labels, ← map_fst_placementsFrom 0]
  cases hrepeated : repeatedLabel? [] ((placementsFrom 0 code.nodes.toList).map (·.1)) with
  | none => exact (nodup_of_repeatedLabel? hrepeated).1
  | some l =>
    simp only [hrepeated] at h
    cases h

/-- A label that is placed once has one position. -/
theorem eq_of_label_of_nodup {nodes : List Node} (h : (nodes.filterMap Node.label?).Nodup)
    {p q : Nat} {l : Label} (hp : nodes[p]? = some (.label l)) (hq : nodes[q]? = some (.label l)) :
    p = q := by
  induction nodes generalizing p q with
  | nil => cases hp
  | cons node rest ih =>
    -- a label at the head is not placed again
    have hhead : ∀ {i : Nat}, node = .label l → rest[i]? = some (.label l) → False := by
      intro i hnode hi
      rw [hnode] at h
      exact (List.nodup_cons.mp h).1 (List.mem_filterMap.mpr ⟨_, List.mem_of_getElem? hi, rfl⟩)
    have hrest : (rest.filterMap Node.label?).Nodup := by
      cases node with
      | label l' => exact (List.nodup_cons.mp h).2
      | insn i => exact h
      | branch b => exact h
      | frame f => exact h
    cases p with
    | zero =>
      cases q with
      | zero => rfl
      | succ q => exact (hhead (Option.some.inj hp) hq).elim
    | succ p =>
      cases q with
      | zero => exact (hhead (Option.some.inj hq) hp).elim
      | succ q => rw [ih hrest hp hq]

theorem Code.eq_of_label {code : Code} (h : code.labels.Nodup) {p q : Nat} {l : Label}
    (hp : code.nodes[p]? = some (.label l)) (hq : code.nodes[q]? = some (.label l)) : p = q := by
  rw [← Array.getElem?_toList] at hp hq
  exact eq_of_label_of_nodup h hp hq

/-! ## Frames before nodes

Positions change when frames are put in. `Framed.Places` relates the two positions of a node, along
with what comes before it, so that labels go on naming what they named. -/

/-- The second list is the first one with at most one frame put before each node, and with none at
all if they are not asked for. -/
inductive Framed (asked : Bool) : List Node → List Node → Prop where
  | nil : Framed asked [] []
  | keep (node : Node) {nodes nodes' : List Node} (h : Framed asked nodes nodes') :
      Framed asked (node :: nodes) (node :: nodes')
  | put (hasked : asked = true) (f : StackMapFrame VType) (node : Node) {nodes nodes' : List Node}
      (h : Framed asked nodes nodes') : Framed asked (node :: nodes) (.frame f :: node :: nodes')

namespace Framed

variable {asked : Bool} {nodes nodes' : List Node} {node before : Node} {p r : Nat}

theorem refl (asked : Bool) (nodes : List Node) : Framed asked nodes nodes := by
  induction nodes with
  | nil => exact .nil
  | cons node rest ih => exact .keep node ih

/-- Weaving frames into a body puts at most one before each node. -/
theorem weaveFrames (position : Nat) (nodes : List Node)
    (frames : List (Nat × StackMapFrame VType)) :
    Framed true nodes (weaveFrames position nodes frames) := by
  fun_induction JvmFrames.weaveFrames position nodes frames with
  | case1 node _ _ f _ ih => exact .put rfl f node ih
  | case2 _ node _ _ _ _ _ ih => exact .keep node ih
  | case3 _ nodes _ _ => exact .refl true nodes

/-- The labels of a body do not change when frames are put in. -/
theorem filterMap_label? (h : Framed asked nodes nodes') :
    nodes'.filterMap Node.label? = nodes.filterMap Node.label? := by
  induction h with
  | nil => rfl
  | keep node _ ih => rw [List.filterMap_cons, List.filterMap_cons, ih]
  | put _ f node _ ih =>
    rw [List.filterMap_cons_none rfl, List.filterMap_cons, List.filterMap_cons, ih]

/-- The node at `r` in the first list is at `p` in the second, and so is the node before it, behind
one frame at most. The lists are taken to stand behind a common node. -/
def Places (asked : Bool) (before : Node) (nodes nodes' : List Node) (r p : Nat) : Prop :=
  nodes'[p]? = nodes[r]? ∧ ((before :: nodes')[p]? = (before :: nodes)[r]?
    ∨ asked = true ∧ ∃ q f, p = q + 1 ∧ nodes'[q]? = some (.frame f)
      ∧ (before :: nodes')[q]? = (before :: nodes)[r]?)

theorem Places.keep (h : Places asked node nodes nodes' r p) :
    Places asked before (node :: nodes) (node :: nodes') (r + 1) (p + 1) := by
  refine ⟨h.1, ?_⟩
  rcases h.2 with hsame | ⟨hasked, q, f, rfl, hf, hsame⟩
  · exact Or.inl hsame
  · exact Or.inr ⟨hasked, q + 1, f, rfl, hf, hsame⟩

/-- A frame put before the first node moves all the later ones by one more. -/
theorem Places.put {f : StackMapFrame VType} (h : Places asked node nodes nodes' r p) :
    Places asked before (node :: nodes) (.frame f :: node :: nodes') (r + 1) (p + 2) := by
  refine ⟨h.1, ?_⟩
  rcases h.2 with hsame | ⟨hasked, q, f', rfl, hf, hsame⟩
  · exact Or.inl hsame
  · exact Or.inr ⟨hasked, q + 2, f', rfl, hf, hsame⟩

/-- The first node may have a frame before it, and then stands at the second place. -/
theorem places_put_head (hasked : asked = true) (f : StackMapFrame VType) :
    Places asked before (node :: nodes) (.frame f :: node :: nodes') 0 1 :=
  ⟨rfl, Or.inr ⟨hasked, 0, f, rfl, rfl, rfl⟩⟩

/-- Every node has a place in the body with frames. -/
theorem exists_later (h : Framed asked nodes nodes') (before : Node)
    (hr : nodes[r]? = some node) : ∃ p, Places asked before nodes nodes' r p := by
  -- `before` is the node in front of the list, by which a place is told from others
  induction h generalizing r before with
  | nil => cases hr
  | keep x _ ih =>
    cases r with
    | zero => exact ⟨0, rfl, Or.inl rfl⟩
    | succ r =>
      obtain ⟨p, hp⟩ := ih x hr
      exact ⟨p + 1, hp.keep⟩
  | put hasked f x _ ih =>
    cases r with
    | zero => exact ⟨1, places_put_head hasked f⟩
    | succ r =>
      obtain ⟨p, hp⟩ := ih x hr
      exact ⟨p + 2, hp.put⟩

/-- Every node other than a frame was in the body without them. -/
theorem exists_earlier (h : Framed asked nodes nodes') (before : Node)
    (hp : nodes'[p]? = some node) (hnode : node.isFrame = false) :
    ∃ r, Places asked before nodes nodes' r p := by
  induction h generalizing p before with
  | nil => cases hp
  | keep x _ ih =>
    cases p with
    | zero => exact ⟨0, rfl, Or.inl rfl⟩
    | succ p =>
      obtain ⟨r, hr⟩ := ih x hp
      exact ⟨r + 1, hr.keep⟩
  | put hasked f x _ ih =>
    cases p with
    -- the frame that was put in is the one node that was not there
    | zero =>
      cases hp
      cases hnode
    | succ p =>
      cases p with
      | zero => exact ⟨0, places_put_head hasked f⟩
      | succ p =>
        obtain ⟨r, hr⟩ := ih x hp
        exact ⟨r + 1, hr.put⟩

end Framed

/-- A label names the node at a position: it stands right before it or, in a body that frames have
been put into, right before its frame. -/
inductive Code.Names (code : Code) (framed : Bool) (s : Label) : Nat → Prop where
  | direct (q : Nat) (hlabel : code.nodes[q]? = some (.label s)) : Names code framed s (q + 1)
  | framed (q : Nat) (f : StackMapFrame VType) (hframed : framed = true)
      (hlabel : code.nodes[q]? = some (.label s)) (hframe : code.nodes[q + 1]? = some (.frame f)) :
      Names code framed s (q + 2)

namespace Code.Names

variable {code : Code} {framed : Bool} {s : Label} {p p' : Nat}

/-- A label that names something is placed in the body. -/
theorem exists_label (h : code.Names framed s p) : ∃ q : Nat, code.nodes[q]? = some (.label s) := by
  cases h with
  | direct q hlabel => exact ⟨q, hlabel⟩
  | framed q _ _ hlabel _ => exact ⟨q, hlabel⟩

/-- A label that is placed once names one instruction at most. -/
theorem unique (hnodup : code.labels.Nodup) (h : code.Names framed s p)
    (h' : code.Names framed s p') {i i' : Instruction} (hp : code.nodes[p]? = some (.insn i))
    (hp' : code.nodes[p']? = some (.insn i')) : p' = p := by
  -- a frame is no instruction, so one label cannot name two nodes in different ways
  cases h with
  | direct q hlabel =>
    cases h' with
    | direct q' hlabel' => rw [Code.eq_of_label hnodup hlabel hlabel']
    | framed q' f _ hlabel' hframe =>
      cases Code.eq_of_label hnodup hlabel hlabel'
      rw [hp] at hframe
      cases hframe
  | framed q f _ hlabel hframe =>
    cases h' with
    | direct q' hlabel' =>
      cases Code.eq_of_label hnodup hlabel hlabel'
      rw [hp'] at hframe
      cases hframe
    | framed q' _ _ hlabel' _ => rw [Code.eq_of_label hnodup hlabel hlabel']

end Code.Names

/-- What a label is right before it still names when frames have been put in. -/
theorem Framed.Places.names {asked : Bool} {code code' : Code} {r p : Nat} {s : Label}
    (h : Places asked (.insn .nop) code.nodes.toList code'.nodes.toList r p)
    (hsite : code.siteBefore? r = some s) : code'.Names asked s p := by
  have hbefore : (Node.insn .nop :: code.nodes.toList)[r]? = some (.label s) := by
    obtain ⟨q, rfl, hq⟩ := Code.node_of_siteBefore? hsite
    rw [List.getElem?_cons_succ, Array.getElem?_toList, hq]
  have hnames := h.2
  rw [hbefore] at hnames
  -- the label is still right before, or a frame has come in between
  rcases hnames with hlabel | ⟨hasked, q, f, rfl, hframe, hlabel⟩
  · cases p with
    | zero => cases hlabel
    | succ q => exact .direct q (by rw [← Array.getElem?_toList]; exact hlabel)
  · cases q with
    | zero => cases hlabel
    | succ q =>
      rw [Array.getElem?_toList] at hframe
      exact .framed q f hasked (by rw [← Array.getElem?_toList]; exact hlabel) hframe

end JvmFrames
