import JvmFrames.Proofs.JoinGraph.Labels
import JvmFrames.Proofs.SiteRenaming

/-!
# Bodies without their frames

A body thins to another if that one is what is left when frames are taken out, and some labels that
nothing refers to are renamed or taken out as well (`Thinning`). What stands at a position moves to
`Thinning.shift`. The join points of the two bodies are the same but for that, and stay so whatever
arrives at them (`JoinGraph.ThinsTo`).
-/

namespace JvmFrames

/-- What becomes of a node if frames are taken out, and labels renamed or taken out. -/
def Node.thin (relabel : Label → Option Label) : Node → Option Node
  | .label l => (relabel l).map .label
  | .frame _ => none
  | node => some node

theorem Node.thin_of_some {relabel : Label → Option Label} {l l' : Label}
    (h : relabel l = some l') : (Node.label l).thin relabel = some (.label l') := by
  rw [thin, h]
  rfl

theorem Node.thin_of_none {relabel : Label → Option Label} {l : Label} (h : relabel l = none) :
    (Node.label l).thin relabel = none := by
  rw [thin, h]
  rfl

/-- The second body is what is left of the first. -/
structure Thinning (old new : Code) where
  /-- What becomes of a label. -/
  relabel : Label → Option Label
  /-- The labels that stay as they are. -/
  fixed : Label → Prop
  nodes : new.nodes.toList = old.nodes.toList.filterMap (Node.thin relabel)
  relabel_fixed : ∀ l, fixed l → relabel l = some l
  fixed_of_relabel : ∀ l l', relabel l = some l' → fixed l' → fixed l

namespace Thinning

variable {old new : Code} (t : Thinning old new) {p q : Nat} {node node' : Node} {l : Label}

/-- Where a position of the old body is in the new one. -/
def shift (p : Nat) : Nat := ((old.nodes.toList.take p).filterMap (Node.thin t.relabel)).length

/-- The node at a position is not taken out. -/
def Keeps (p : Nat) : Prop := t.shift (p + 1) = t.shift p + 1

variable {t}

theorem shift_zero : t.shift 0 = 0 := rfl

/-- Positions move on by one for each node that is kept. -/
theorem shift_succ (h : old.nodes[p]? = some node) :
    t.shift (p + 1) = t.shift p + (node.thin t.relabel).toList.length := by
  rw [← Array.getElem?_toList] at h
  unfold shift
  rw [List.take_add_one, h, List.filterMap_append, List.length_append]
  cases hthin : node.thin t.relabel with
  | none => simp [hthin]
  | some node' => simp [hthin]

theorem shift_of_dropped (h : old.nodes[p]? = some node) (hthin : node.thin t.relabel = none) :
    t.shift (p + 1) = t.shift p := by
  rw [shift_succ h, hthin]
  rfl

theorem keeps_of_thin (h : old.nodes[p]? = some node) (hthin : node.thin t.relabel = some node') :
    t.Keeps p := by
  unfold Keeps
  rw [shift_succ h, hthin]
  rfl

/-- A node that is kept is found where its position has moved to. -/
theorem node_of_thin (h : old.nodes[p]? = some node) (hthin : node.thin t.relabel = some node') :
    new.nodes[t.shift p]? = some node' := by
  rw [← Array.getElem?_toList] at h
  obtain ⟨hlt, hget⟩ := List.getElem?_eq_some_iff.mp h
  -- what is left of the nodes before it comes before it, and is as long as its new position says
  have hsplit : new.nodes.toList = (old.nodes.toList.take p).filterMap (Node.thin t.relabel)
      ++ node' :: (old.nodes.toList.drop (p + 1)).filterMap (Node.thin t.relabel) := by
    rw [← List.filterMap_cons_some hthin, ← hget, ← List.drop_eq_getElem_cons hlt,
      ← List.filterMap_append, List.take_append_drop, t.nodes]
  rw [← Array.getElem?_toList, hsplit, shift, List.getElem?_append_right (Nat.le_refl _),
    Nat.sub_self]
  rfl

/-- Behind the end of the old body is behind the end of the new one. -/
theorem node_of_end (h : old.nodes[p]? = none) : new.nodes[t.shift p]? = none := by
  have hlength : old.nodes.toList.length ≤ p := by
    rw [Array.length_toList]
    exact Array.getElem?_eq_none_iff.mp h
  rw [← Array.getElem?_toList, t.nodes, shift, List.take_of_length_le hlength]
  exact List.getElem?_eq_none (Nat.le_refl _)

/-- Positions stay in order, though two of them may become one. -/
theorem shift_mono (h : p ≤ q) : t.shift p ≤ t.shift q := by
  obtain ⟨k, rfl⟩ := Nat.exists_eq_add_of_le h
  unfold shift
  rw [List.take_add, List.filterMap_append, List.length_append]
  exact Nat.le_add_right ..

/-- A position that is kept stays in order with all others. -/
theorem shift_le_iff (h : t.Keeps p) : t.shift q ≤ t.shift p ↔ q ≤ p := by
  constructor
  · intro hle
    by_contra hlt
    -- the node at `p` is kept, so that all that is behind it is moved one further at least
    have hmono := shift_mono (t := t) (Nat.lt_of_not_le hlt)
    rw [Nat.succ_eq_add_one, h] at hmono
    omega
  · exact shift_mono

/-! ## What is kept

Instructions are kept, and so are the labels that something may refer to. -/

/-- A label that stays as it is is found where its position has moved to. -/
theorem node_of_fixed (h : old.nodes[p]? = some (.label l)) (hl : t.fixed l) :
    t.Keeps p ∧ new.nodes[t.shift p]? = some (.label l) := by
  have hthin := Node.thin_of_some (t.relabel_fixed l hl)
  exact ⟨keeps_of_thin h hthin, node_of_thin h hthin⟩

/-- An instruction is found where its position has moved to. -/
theorem node_of_instruction (h : old.nodes[p]? = some node) (hnode : node.isInstruction = true) :
    t.Keeps p ∧ new.nodes[t.shift p]? = some node := by
  have hthin : node.thin t.relabel = some node := by
    cases node with
    | label l => cases hnode
    | frame f => cases hnode
    | _ => rfl
  exact ⟨keeps_of_thin h hthin, node_of_thin h hthin⟩

/-- A label that stays as it is stands in the old body if it does in the new one. -/
theorem places_of_fixed (hl : t.fixed l) (h : new.Places l) : old.Places l := by
  rw [Code.places_iff_mem_labels, Code.labels, mem_filterMap_label?] at h ⊢
  rw [t.nodes] at h
  obtain ⟨node, hmem, hthin⟩ := List.mem_filterMap.mp h
  cases node with
  | label l' =>
    obtain ⟨l'', hrelabel, heq⟩ := Option.map_eq_some_iff.mp hthin
    cases heq
    -- no other label can become one that stays as it is
    have hfixed := t.fixed_of_relabel l' l hrelabel hl
    rw [t.relabel_fixed l' hfixed] at hrelabel
    cases hrelabel
    exact hmem
  | frame f => cases hthin
  | insn i => cases hthin
  | branch b => cases hthin

/-- Both bodies jump to the same labels. -/
theorem jumpTargets_eq (t : Thinning old new) :
    JoinGraph.jumpTargets new.nodes.toList = JoinGraph.jumpTargets old.nodes.toList := by
  rw [t.nodes]
  unfold JoinGraph.jumpTargets
  generalize old.nodes.toList = nodes
  induction nodes with
  | nil => rfl
  | cons node rest ih =>
    cases hthin : node.thin t.relabel with
    | none =>
      rw [List.filterMap_cons_none hthin, ih, List.flatMap_cons]
      -- only labels and frames are taken out, and neither jumps
      cases node with
      | label l => rfl
      | frame f => rfl
      | insn i => cases hthin
      | branch b => cases hthin
    | some node' =>
      rw [List.filterMap_cons_some hthin, List.flatMap_cons, List.flatMap_cons, ih]
      cases node with
      | label l =>
        obtain ⟨l', _, rfl⟩ := Option.map_eq_some_iff.mp hthin
        rfl
      | frame f => cases hthin
      | insn i => cases hthin; rfl
      | branch b => cases hthin; rfl

end Thinning

/-! ## Join points

A join point is carried over with its position shifted and the sites in its frames renamed. Arrivals
at the two go in step, since both the merge and the list of snapshots commute with renaming. -/

/-- Where a join point is in the new body, with the sites in its frames renamed. -/
def JoinPoint.carry (shift : Nat → Nat) (r : Renaming) (j : JoinPoint) : JoinPoint :=
  ⟨j.label, shift j.position, j.merged.map (Frame.rename r),
    j.seen.map (Snapshot.map (VType.rename r)), j.handler⟩

/-- Where a path is in the new body. -/
def Thinning.carryPath {old new : Code} (t : Thinning old new) (r : Renaming) (path : Nat × Frame) :
    Nat × Frame :=
  (t.shift path.1, path.2.rename r)

/-- A guard with its ends moved to the new body. -/
def Guard.carry (shift : Nat → Nat) (guard : Guard) : Guard :=
  ⟨shift guard.start, shift guard.stop, guard.handler⟩

/-- The same frame arrives at a join point and where this is carried to. -/
theorem JoinPoint.cases_of_arrive_carry (oracle : Oracle) (shift : Nat → Nat) (r : Renaming)
    (j : JoinPoint) (f : Frame) :
    (j.arrive oracle f = .known ∧ (j.carry shift r).arrive oracle (f.rename r) = .known)
      ∨ (∃ k changed, j.arrive oracle f = .merged k changed ∧ k.label = j.label
          ∧ k.position = j.position
          ∧ (j.carry shift r).arrive oracle (f.rename r) = .merged (k.carry shift r) changed)
      ∨ ∃ k e k' e', j.arrive oracle f = .refused k e
          ∧ (j.carry shift r).arrive oracle (f.rename r) = .refused k' e' := by
  -- sites are renamed one-to-one, so that no snapshot is taken for another
  have hseen : (f.rename r).snapshot ∈ (j.carry shift r).seen ↔ f.snapshot ∈ j.seen := by
    show _ ∈ j.seen.map _ ↔ _
    rw [Frame.snapshot_rename, List.mem_map]
    constructor
    · rintro ⟨s, hs, heq⟩
      rw [← Snapshot.map_injective (VType.rename_injective r) s f.snapshot heq]
      exact hs
    · exact fun h => ⟨_, h, rfl⟩
  unfold JoinPoint.arrive
  by_cases hknown : f.snapshot ∈ j.seen
  · rw [if_pos hknown, if_pos (hseen.mpr hknown)]
    exact Or.inl ⟨rfl, rfl⟩
  · rw [if_neg hknown, if_neg fun h => hknown (hseen.mp h)]
    right
    obtain ⟨label, position, merged, seen, handler⟩ := j
    cases merged with
    | none =>
      refine Or.inl ⟨_, true, rfl, rfl, rfl, ?_⟩
      simp [JoinPoint.carry, Frame.snapshot_rename]
    | some current =>
      simp only [JoinPoint.carry, Option.map_some]
      obtain ⟨cause, cause', hx, hy, _⟩ | ⟨m, _, hx, hy, rfl⟩ :=
        (Frame.agree_merge oracle r current f).cases
      · simp only [hx, hy]
        exact Or.inr ⟨_, _, _, _, rfl, rfl⟩
      · simp only [hx, hy]
        refine Or.inl ⟨_, _, rfl, rfl, rfl, ?_⟩
        have hchanged : m.rename r ≠ current.rename r ↔ m ≠ current :=
          not_congr ⟨Frame.rename_injective r m current, fun h => by rw [h]⟩
        simp only [hchanged, Frame.snapshot_rename, Option.map_some, List.map_cons]

namespace JoinGraph

variable {old new : Code} {t : Thinning old new} {r : Renaming} {g g' : JoinGraph} {oracle : Oracle}
variable {l : Label} {f : Frame} {j k : JoinPoint} {p : Nat}

/-- The second graph has the join points and guards of the first, carried from the old body to the
new one. Where labels are placed is left out: nothing asks for that once the join points are
found. -/
structure ThinsTo (t : Thinning old new) (r : Renaming) (g g' : JoinGraph) : Prop where
  joins : g'.joins = g.joins.map (JoinPoint.carry t.shift r)
  guards : g'.guards = g.guards.map (Guard.carry t.shift)
  kept : ∀ j ∈ g.joins, t.Keeps j.position
  fixed : ∀ j ∈ g.joins, t.fixed j.label

namespace ThinsTo

theorem join?_eq (h : g.ThinsTo t r g') (l : Label) :
    g'.join? l = (g.join? l).map (JoinPoint.carry t.shift r) := by
  rw [join?, join?, h.joins, List.find?_map]
  rfl

theorem isJoin_eq (h : g.ThinsTo t r g') (l : Label) : g'.isJoin l = g.isJoin l := by
  rw [isJoin, isJoin, h.join?_eq, Option.isSome_map]

theorem frameAt?_eq (h : g.ThinsTo t r g') (l : Label) :
    g'.frameAt? l = (g.frameAt? l).map (Frame.rename r) := by
  rw [frameAt?, frameAt?, h.join?_eq]
  cases g.join? l <;> rfl

/-- Labels that change are no join points. -/
theorem isJoin_of_not_fixed (h : g.ThinsTo t r g') (hl : ¬ t.fixed l) : g.isJoin l = false := by
  rw [isJoin, Option.isSome_eq_false_iff, Option.isNone_iff_eq_none]
  cases hj : g.join? l with
  | none => rfl
  | some j =>
    have hfixed := h.fixed j (mem_of_join? hj)
    rw [label_of_join? hj] at hfixed
    exact absurd hfixed hl

/-- Replacing corresponding join points keeps the graphs in step. -/
theorem setJoin (h : g.ThinsTo t r g') (hj : j ∈ g.joins) (hlabel : k.label = j.label)
    (hposition : k.position = j.position) :
    (g.setJoin k).ThinsTo t r (g'.setJoin (k.carry t.shift r)) where
  joins := by
    show g'.joins.map _ = (g.joins.map _).map _
    rw [h.joins, List.map_map, List.map_map]
    refine List.map_congr_left fun i _ => ?_
    show (if i.label = k.label then _ else _) = (if i.label = k.label then k else i).carry t.shift r
    split <;> rfl
  guards := h.guards
  kept := by
    intro i hi
    obtain ⟨i', hi', rfl⟩ := List.mem_map.mp hi
    split
    · -- the join point put in stands where the old one stood
      rw [hposition]
      exact h.kept j hj
    · exact h.kept i' hi'
  fixed := by
    intro i hi
    obtain ⟨i', hi', rfl⟩ := List.mem_map.mp hi
    split
    · rw [hlabel]
      exact h.fixed j hj
    · exact h.fixed i' hi'

/-- The handlers of a position that is kept are those of where it has moved to. -/
theorem protectors_eq (h : g.ThinsTo t r g') (hp : t.Keeps p) :
    g'.protectors (t.shift p) = g.protectors p := by
  unfold protectors
  rw [h.guards, List.filter_map, List.map_map]
  -- the ends of a guard may coincide in the new body, but what is kept stays inside or outside
  have hcovers : (fun guard => Guard.covers guard (t.shift p)) ∘ Guard.carry t.shift
      = fun guard => guard.covers p := by
    funext guard
    show decide (t.shift guard.start ≤ t.shift p ∧ t.shift p < t.shift guard.stop)
      = decide (guard.start ≤ p ∧ p < guard.stop)
    have hstop : t.shift p < t.shift guard.stop ↔ p < guard.stop := by
      rw [← Nat.not_le, ← Nat.not_le, Thinning.shift_le_iff hp]
    simp only [Thinning.shift_le_iff hp, hstop]
  rw [hcovers]
  rfl

/-! ### Arrivals

The two graphs receive a frame and its renaming, at the same labels. Both refuse it or neither does.
-/

/-- Feeding one handler keeps the graphs in step. -/
theorem agree_feedHandler (h : g.ThinsTo t r g') (oracle : Oracle) (f : Frame) (l : Label) :
    Agree (ThinsTo t r) (g.feedHandler oracle f l) (g'.feedHandler oracle (f.rename r) l) := by
  unfold feedHandler
  rw [h.join?_eq]
  cases hj : g.join? l with
  | none => exact h
  | some j =>
    have hhandler : (j.carry t.shift r).handler = j.handler := rfl
    simp only [Option.map_some, hhandler]
    cases hs : j.handler with
    | none => exact h
    | some s =>
      -- the exception that a handler catches has no site, so it is the same on both sides
      have hentering : (f.rename r).entering s = (f.entering s).rename r := rfl
      dsimp only
      rw [hentering]
      rcases j.cases_of_arrive_carry oracle t.shift r (f.entering s) with
        ⟨heq, heq'⟩ | ⟨k, changed, heq, hlabel, hposition, heq'⟩ | ⟨k, e, k', e', heq, heq'⟩
      · rw [heq, heq']
        exact h
      · rw [heq, heq']
        cases changed with
        | false => exact h.setJoin (mem_of_join? hj) hlabel hposition
        | true => exact h.setJoin (k := k.withPending true) (mem_of_join? hj) hlabel hposition
      · rw [heq, heq']
        trivial

/-- Feeding some handlers keeps the graphs in step. -/
theorem agree_feedHandlers (h : g.ThinsTo t r g') (oracle : Oracle) (f : Frame)
    (labels : List Label) :
    Agree (ThinsTo t r) (feedHandlers oracle f labels g)
      (feedHandlers oracle (f.rename r) labels g') := by
  induction labels generalizing g g' with
  | nil => exact h
  | cons l rest ih => exact (h.agree_feedHandler oracle f l).bind fun _ _ h₁ => ih h₁

/-- Feeding the handlers of a position that is kept keeps the graphs in step. -/
theorem agree_feed (h : g.ThinsTo t r g') (oracle : Oracle) (hp : t.Keeps p) (f : Frame) :
    Agree (ThinsTo t r) (g.feed oracle p f) (g'.feed oracle (t.shift p) (f.rename r)) := by
  unfold feed
  rw [h.protectors_eq hp]
  exact h.agree_feedHandlers oracle f _

/-- A frame that arrives at a label keeps the graphs in step, and changes both or neither. -/
theorem agree_mark (h : g.ThinsTo t r g') (oracle : Oracle) (l : Label) (f : Frame) :
    Agree (fun a b => a.1.ThinsTo t r b.1 ∧ b.2 = a.2) (g.mark oracle l f)
      (g'.mark oracle l (f.rename r)) := by
  unfold mark
  rw [h.join?_eq]
  cases hj : g.join? l with
  | none => trivial
  | some j =>
    simp only [Option.map_some]
    rcases j.cases_of_arrive_carry oracle t.shift r f with
      ⟨heq, heq'⟩ | ⟨k, changed, heq, hlabel, hposition, heq'⟩ | ⟨k, e, k', e', heq, heq'⟩
    · rw [heq, heq']
      exact ⟨h, rfl⟩
    · rw [heq, heq']
      have hset := h.setJoin (k := k) (mem_of_join? hj) hlabel hposition
      cases changed with
      | false => exact ⟨hset, rfl⟩
      | true =>
        -- the handlers of the label are fed, and its position is kept
        have hkept : t.Keeps k.position := by
          rw [hposition]
          exact h.kept j (mem_of_join? hj)
        exact (hset.agree_feed oracle hkept f).bind fun _ _ h₁ => ⟨h₁, rfl⟩
    · rw [heq, heq']
      trivial

/-- A branch keeps the graphs and the work lists in step. -/
theorem agree_markTargets (h : g.ThinsTo t r g') (oracle : Oracle) (f : Frame) (labels : List Label)
    (work : List (Nat × Frame)) :
    Agree (fun a b => a.1.ThinsTo t r b.1 ∧ b.2 = a.2.map (t.carryPath r))
      (markTargets oracle f labels g work)
      (markTargets oracle (f.rename r) labels g' (work.map (t.carryPath r))) := by
  induction labels generalizing g g' work with
  | nil => exact ⟨h, rfl⟩
  | cons l rest ih =>
    rw [markTargets, markTargets]
    refine (h.agree_mark oracle l f).bind ?_
    rintro ⟨g₁, _⟩ ⟨g₁', changed⟩ ⟨h₁, rfl⟩
    dsimp only at h₁ ⊢
    rw [h₁.join?_eq]
    cases changed with
    | false => exact ih h₁ work
    | true =>
      cases hj : g₁.join? l with
      | none => exact ih h₁ work
      | some j =>
        -- the path to follow starts right behind the label in both bodies
        have hkept := h₁.kept j (mem_of_join? hj)
        have hpath : ((j.carry t.shift r).position + 1,
            (j.carry t.shift r).merged.getD (f.rename r))
              = t.carryPath r (j.position + 1, j.merged.getD f) := by
          unfold Thinning.carryPath
          rw [hkept]
          show (_, (j.merged.map _).getD _) = _
          cases j.merged <;> rfl
        dsimp only [Option.map_some]
        rw [hpath, ← List.map_cons]
        exact ih h₁ _

/-- The handler that is next in turn is the same. -/
theorem nextPending?_cases (h : g.ThinsTo t r g') :
    (g.nextPending? = none ∧ g'.nextPending? = none)
      ∨ ∃ l p f g₁ g₁', g.nextPending? = some ((l, p, f), g₁)
        ∧ g'.nextPending? = some ((l, t.shift p, f.rename r), g₁') ∧ g₁.ThinsTo t r g₁' := by
  unfold nextPending?
  have hfind : g'.joins.find? JoinPoint.isPending
      = (g.joins.find? JoinPoint.isPending).map (JoinPoint.carry t.shift r) := by
    rw [h.joins, List.find?_map]
    rfl
  rw [hfind]
  cases hj : g.joins.find? JoinPoint.isPending with
  | none => exact Or.inl ⟨rfl, rfl⟩
  | some j =>
    have hmem := List.mem_of_find?_eq_some hj
    have hset := h.setJoin (k := j.withPending false) hmem rfl rfl
    cases hmerged : j.merged with
    | none =>
      refine Or.inl ⟨by simp only [hmerged, Option.map_none], ?_⟩
      simp only [Option.map_some, JoinPoint.carry, hmerged, Option.map_none]
    | some f =>
      refine Or.inr ⟨j.label, j.position + 1, f, _, _, ?_, ?_, hset⟩
      · simp only [hmerged, Option.map_some]
      · have hcarry : (j.carry t.shift r).merged = some (f.rename r) := by
          simp only [JoinPoint.carry, hmerged, Option.map_some]
        -- the position of a join point is kept, so the one behind it moves along
        rw [h.kept j hmem]
        simp only [Option.map_some, hcarry]
        rfl

end ThinsTo

/-! ### Finding the join points

The graphs are made in step as well. This asks for the positions of labels, which is why it needs
those that are referred to to stay as they are. -/

/-- Of the labels that stay as they are, both graphs know the same ones, and each where it has moved
to. -/
def Locates (t : Thinning old new) (g g' : JoinGraph) : Prop :=
  ∀ l, t.fixed l → Agree (fun p q => q = t.shift p ∧ t.Keeps p) (g.position l) (g'.position l)

/-- Graphs that know where labels are placed agree on the labels that stay as they are. -/
theorem locates_of_placed (hold : ∀ l p, g.position l = .ok p ↔ old.nodes[p]? = some (.label l))
    (hnew : ∀ l p, g'.position l = .ok p ↔ new.nodes[p]? = some (.label l)) : Locates t g g' := by
  intro l hl
  cases hp : g.position l with
  | ok p =>
    obtain ⟨hkept, hnode⟩ := Thinning.node_of_fixed ((hold l p).mp hp) hl
    rw [(hnew l _).mpr hnode]
    exact ⟨rfl, hkept⟩
  | error e =>
    cases hq : g'.position l with
    | error e' => trivial
    | ok q =>
      obtain ⟨p, hnode⟩ := Thinning.places_of_fixed hl ⟨q, (hnew l q).mp hq⟩
      rw [(hold l p).mpr hnode] at hp
      cases hp

/-- The graphs correspond while they are made. -/
structure Begun (t : Thinning old new) (r : Renaming) (g g' : JoinGraph) : Prop where
  thins : g.ThinsTo t r g'
  locates : Locates t g g'

/-- Adding a join point keeps the graphs in step. -/
theorem ThinsTo.addJoin (h : g.ThinsTo t r g') (hl : t.fixed l) (hp : t.Keeps p) :
    (g.addJoin l p).ThinsTo t r (g'.addJoin l (t.shift p)) := by
  unfold JoinGraph.addJoin
  rw [h.isJoin_eq]
  split
  · exact h
  · -- both lists get the join point at their ends
    refine ⟨?_, h.guards, fun j hj => ?_, fun j hj => ?_⟩
    · show g'.joins ++ _ = (g.joins ++ [_]).map _
      rw [h.joins, List.map_append]
      rfl
    · rcases List.mem_append.mp hj with hj | hj
      · exact h.kept j hj
      · rw [List.mem_singleton.mp hj]
        exact hp
    · rcases List.mem_append.mp hj with hj | hj
      · exact h.fixed j hj
      · rw [List.mem_singleton.mp hj]
        exact hl

theorem Begun.addJoin (h : g.Begun t r g') (hl : t.fixed l) (hp : t.Keeps p) :
    (g.addJoin l p).Begun t r (g'.addJoin l (t.shift p)) where
  thins := h.thins.addJoin hl hp
  locates := fun l' hl' => by
    rw [position_addJoin, position_addJoin]
    exact h.locates l' hl'

/-- Adding the targets of branches goes wrong for both graphs or for neither. -/
theorem Begun.agree_addTargets {labels : List Label} (h : g.Begun t r g')
    (hlabels : ∀ l ∈ labels, t.fixed l) :
    Agree (Begun t r) (g.addTargets labels) (g'.addTargets labels) := by
  induction labels generalizing g g' with
  | nil => exact h
  | cons l rest ih =>
    have hl := hlabels l (List.mem_cons_self ..)
    refine (h.locates l hl).bind ?_
    rintro p _ ⟨rfl, hp⟩
    exact ih (h.addJoin hl hp) fun l' hl' => hlabels l' (List.mem_cons_of_mem _ hl')

/-- Adding a range goes wrong for both graphs or for neither. -/
theorem Begun.agree_addRange (h : g.Begun t r g') (oracle : Oracle) {range : ProtectedRange}
    (hrange : ∀ l, range.Names l → t.fixed l) :
    Agree (Begun t r) (g.addRange oracle range) (g'.addRange oracle range) := by
  have hhandler := hrange range.handler (Or.inr (Or.inr rfl))
  refine (h.locates range.start (hrange _ (Or.inl rfl))).bind ?_
  rintro start _ ⟨rfl, _⟩
  refine (h.locates range.stop (hrange _ (Or.inr (Or.inl rfl)))).bind ?_
  rintro stop _ ⟨rfl, _⟩
  refine (h.locates range.handler hhandler).bind ?_
  rintro entry _ ⟨rfl, hentry⟩
  have hjoin := h.addJoin hhandler hentry
  generalize g.addJoin range.handler entry = g₁ at hjoin
  generalize g'.addJoin range.handler (t.shift entry) = g₁' at hjoin
  -- the guard is added after the join point of the handler, and its type last of all
  have hguards : Begun t r { g₁ with guards := g₁.guards ++ [⟨start, stop, range.handler⟩] }
      { g₁' with guards := g₁'.guards ++ [⟨t.shift start, t.shift stop, range.handler⟩] } := by
    refine ⟨⟨hjoin.thins.joins, ?_, hjoin.thins.kept, hjoin.thins.fixed⟩, hjoin.locates⟩
    show g₁'.guards ++ _ = (g₁.guards ++ [_]).map _
    rw [hjoin.thins.guards, List.map_append]
    rfl
  dsimp only
  rw [hguards.thins.join?_eq]
  cases hj : join? { g₁ with guards := g₁.guards ++ [⟨start, stop, range.handler⟩] }
      range.handler with
  | none => exact hguards
  | some j =>
    refine ⟨?_, hguards.locates⟩
    exact hguards.thins.setJoin (k := { j with handler := some _ }) (mem_of_join? hj) rfl rfl

/-- Adding the exception table goes wrong for both graphs or for neither. -/
theorem Begun.agree_addRanges {ranges : List ProtectedRange} (h : g.Begun t r g') (oracle : Oracle)
    (hranges : ∀ range ∈ ranges, ∀ l, range.Names l → t.fixed l) :
    Agree (Begun t r) (g.addRanges oracle ranges) (g'.addRanges oracle ranges) := by
  induction ranges generalizing g g' with
  | nil => exact h
  | cons range rest ih =>
    refine (h.agree_addRange oracle (hranges range (List.mem_cons_self ..))).bind ?_
    exact fun _ _ h₁ => ih h₁ fun r hr => hranges r (List.mem_cons_of_mem _ hr)

/-- Both graphs are begun, or a label is placed twice in both bodies. -/
theorem agree_ofPlacements (t : Thinning old new) (r : Renaming)
    (hnodup : new.labels.Nodup ↔ old.labels.Nodup) :
    Agree (Begun t r) (ofPlacements old) (ofPlacements new) := by
  by_cases h : old.labels.Nodup
  · have hold := ofPlacements_eq_ok_iff.mpr ⟨h, rfl⟩
    have hnew := ofPlacements_eq_ok_iff.mpr ⟨hnodup.mpr h, rfl⟩
    rw [hold, hnew]
    exact ⟨⟨rfl, rfl, nofun, nofun⟩, locates_of_placed (prepared_ofPlacements hold).placed
      (prepared_ofPlacements hnew).placed⟩
  · cases hold : ofPlacements old with
    | ok g => exact absurd (ofPlacements_eq_ok_iff.mp hold).1 h
    | error e =>
      cases hnew : ofPlacements new with
      | ok g => exact absurd (hnodup.mp (ofPlacements_eq_ok_iff.mp hnew).1) h
      | error e' => trivial

/-- The join points of a body are carried to those of the body it thins to, if the labels that are
referred to stay as they are. -/
theorem agree_build (t : Thinning old new) (r : Renaming) (oracle : Oracle)
    {ranges : List ProtectedRange} (hnodup : new.labels.Nodup ↔ old.labels.Nodup)
    (hrefers : ∀ l, old.Refers ranges l → t.fixed l) :
    Agree (ThinsTo t r) (build oracle old ranges) (build oracle new ranges) := by
  have hjumps : Agree (Begun t r) (ofJumps old) (ofJumps new) := by
    refine (agree_ofPlacements t r hnodup).bind fun g g' h => ?_
    rw [t.jumpTargets_eq]
    exact h.agree_addTargets fun l hl =>
      hrefers l (Or.inl (Code.jumpsTo_iff_mem_jumpTargets.mpr hl))
  have hbuild : Agree (Begun t r) (build oracle old ranges) (build oracle new ranges) :=
    hjumps.bind fun g g' h =>
      h.agree_addRanges oracle fun range hrange l hl => hrefers l (Or.inr ⟨range, hrange, hl⟩)
  exact hbuild.imp (fun _ _ h => h) fun _ _ h => h.thins

end JoinGraph

end JvmFrames
