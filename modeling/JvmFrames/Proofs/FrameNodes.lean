import Mathlib.Data.Finset.Dedup
import Mathlib.Data.Finset.Range
import JvmFrames.Proofs.Directives
import JvmFrames.Proofs.Machine.Lockstep
import JvmFrames.Proofs.Unframed

/-!
# Frames in a body make no difference

A body and the same body without its frames are labelled differently, but each `new` has a label of
its own in both. So the sites of one can be renamed to those of the other (`Code.exists_renaming`),
and analysis comes to the same end, if allocations are told by the order of their `new`s and not by
labels.
-/

namespace JvmFrames

/-! ## Allocations told by their order

The label of a `new` depends on what else is in the body, and its ordinal among all `new`s does not.
So results are compared with every allocation told by its ordinal. -/

/-- An allocation, of whatever class. -/
def Node.isNew : Node → Bool
  | .insn (.new _) => true
  | _ => false

theorem Node.exists_of_isNew {node : Node} (h : node.isNew = true) :
    ∃ c, node = .insn (.new c) := by
  unfold isNew at h
  split at h
  · exact ⟨_, rfl⟩
  · cases h

/-- The ordinal of the `new` right after a label: how many come before it in the body. -/
def Code.ordinal? (code : Code) (s : Label) : Option Nat :=
  (code.positionOf? s).bind fun p =>
    if code.nodes[p + 1]?.any Node.isNew then
      some ((code.nodes.toList.take (p + 1)).countP Node.isNew)
    else none

/-- With an allocation told by its class and its place among the `new`s of the body. -/
def VType.told (code : Code) (v : VType) : VerificationType RefType (ClassName × Option Nat) :=
  v.map id fun u => (u.className, code.ordinal? u.site)

/-- A directive with all allocations told by their order. -/
def Directive.told (code : Code) (d : Directive) :
    Label × Snapshot (VerificationType RefType (ClassName × Option Nat))
      × StackMapFrame (VerificationType RefType (ClassName × Option Nat)) :=
  (d.label, d.snapshot.map (VType.told code), d.frame.map (VType.told code))

namespace Code

variable {code : Code} {s : Label} {p p' : Nat} {c : ClassName}

/-- A label stands at the position that is found for it. -/
theorem node_of_positionOf? (h : code.positionOf? s = some p) :
    code.nodes[p]? = some (.label s) := by
  obtain ⟨hlt, hget, _⟩ := Array.findIdx?_eq_some_iff_getElem.mp h
  rw [Array.getElem?_eq_getElem hlt]
  cases hnode : code.nodes[p] with
  | label l =>
    rw [hnode] at hget
    cases of_decide_eq_true hget
    rfl
  | _ =>
    rw [hnode] at hget
    cases of_decide_eq_true hget

theorem eq_of_siteBefore? (hnodup : code.labels.Nodup) (h : code.siteBefore? p = some s)
    (h' : code.siteBefore? p' = some s) : p' = p := by
  obtain ⟨q, rfl, hq⟩ := node_of_siteBefore? h
  obtain ⟨q', rfl, hq'⟩ := node_of_siteBefore? h'
  rw [Code.eq_of_label hnodup hq hq']

/-- A label placed once is found where it stands. -/
theorem positionOf?_of_node (hnodup : code.labels.Nodup) (h : code.nodes[p]? = some (.label s)) :
    code.positionOf? s = some p := by
  cases hposition : code.positionOf? s with
  | some q => rw [Code.eq_of_label hnodup h (node_of_positionOf? hposition)]
  | none =>
    have hnone := Array.findIdx?_eq_none_iff.mp hposition _ (Array.mem_of_getElem? h)
    exact absurd rfl (of_decide_eq_false hnone)

/-- The site of a `new` has its ordinal. -/
theorem ordinal?_of_site (hnodup : code.labels.Nodup)
    (hnew : code.nodes[p]? = some (.insn (.new c))) (hsite : code.siteBefore? p = some s) :
    code.ordinal? s = some ((code.nodes.toList.take p).countP Node.isNew) := by
  obtain ⟨q, rfl, hq⟩ := node_of_siteBefore? hsite
  rw [ordinal?, positionOf?_of_node hnodup hq, Option.bind_some, hnew]
  rfl

/-- Only the label right before a `new` has an ordinal. -/
theorem site_of_ordinal? {n : Nat} (h : code.ordinal? s = some n) :
    ∃ p c, code.nodes[p]? = some (.insn (.new c)) ∧ code.siteBefore? p = some s := by
  obtain ⟨p, hp, hn⟩ := Option.bind_eq_some_iff.mp h
  split at hn
  · next hany =>
    obtain ⟨node, hnode, hisNew⟩ := (Option.any_eq_true _ _).mp hany
    obtain ⟨c, rfl⟩ := Node.exists_of_isNew hisNew
    refine ⟨p + 1, c, hnode, ?_⟩
    rw [siteBefore?, node_of_positionOf? hp]
    rfl
  · cases hn

/-- No label is placed twice, and each `new` has one right before it. -/
structure Labelled (code : Code) : Prop where
  nodup : code.labels.Nodup
  site : ∀ q c, code.nodes[q]? = some (.insn (.new c)) → ∃ s, code.siteBefore? q = some s

/-- Labelling gives each `new` a site. -/
theorem labelled_labelAllocations (h : code.labelAllocations.labels.Nodup) :
    code.labelAllocations.Labelled where
  nodup := h
  site := by
    intro q c hq
    have hprepare : Analysis.prepare .plain code = code.labelAllocations := rfl
    rw [← hprepare] at hq ⊢
    exact Analysis.exists_siteBefore?_prepare hq

end Code

/-! ## Renaming the sites of one body to those of another

The renaming has to be one-to-one on all labels, and not only on sites, for merging compares sites.
So the labels that are no sites are moved out of the way. -/

namespace Thinning

variable {old new : Code} {t : Thinning old new} {bound p : Nat} {s s' : Label} {c : ClassName}

/-- The site of a `new` of the old body becomes that of the same `new` in the new one. Labels that
are no sites become labels from a bound on, so as to be out of the way. -/
def renameSite (t : Thinning old new) (bound : Nat) (s : Label) : Label :=
  ((old.ordinal? s).bind fun _ => (old.positionOf? s).bind fun p =>
    new.siteBefore? (t.shift (p + 1))).getD ⟨bound + s.id⟩

theorem renameSite_of_ordinal? (h : old.ordinal? s = none) :
    t.renameSite bound s = ⟨bound + s.id⟩ := by
  rw [renameSite, h]
  rfl

/-- The site of a `new` becomes the site of the same `new`. -/
theorem renameSite_of_site (hold : old.labels.Nodup)
    (hp : old.nodes[p]? = some (.insn (.new c))) (hs : old.siteBefore? p = some s)
    (hs' : new.siteBefore? (t.shift p) = some s') : t.renameSite bound s = s' := by
  rw [renameSite, Code.ordinal?_of_site hold hp hs, Option.bind_some]
  obtain ⟨q, rfl, hq⟩ := Code.node_of_siteBefore? hs
  rw [Code.positionOf?_of_node hold hq, Option.bind_some, hs']
  rfl

/-- A label is the site of a `new` in both bodies, or not the site of any. -/
theorem cases_renameSite (t : Thinning old new) (bound : Nat) (hold : old.Labelled)
    (hnew : new.Labelled) (s : Label) :
    (old.ordinal? s = none ∧ t.renameSite bound s = ⟨bound + s.id⟩)
      ∨ ∃ p c, old.nodes[p]? = some (.insn (.new c)) ∧ old.siteBefore? p = some s
        ∧ new.siteBefore? (t.shift p) = some (t.renameSite bound s) := by
  cases hs : old.ordinal? s with
  | none => exact Or.inl ⟨rfl, renameSite_of_ordinal? hs⟩
  | some n =>
    obtain ⟨p, c, hp, hsite⟩ := Code.site_of_ordinal? hs
    obtain ⟨s', hs'⟩ := hnew.site _ c (node_of_instruction (t := t) hp rfl).2
    refine Or.inr ⟨p, c, hp, hsite, ?_⟩
    rw [renameSite_of_site hold.nodup hp hsite hs', hs']

/-- Sites are renamed one-to-one. -/
theorem renameSite_injective (hold : old.Labelled) (hnew : new.Labelled)
    (hbound : ∀ l, new.Places l → l.id < bound) (a b : Label)
    (heq : t.renameSite bound a = t.renameSite bound b) : a = b := by
  -- all sites of the new body are below the bound, so they meet no label moved there
  have hplaced : ∀ {q s}, new.siteBefore? q = some s → s.id < bound := by
    intro q s hs
    obtain ⟨q', _, hq'⟩ := Code.node_of_siteBefore? hs
    exact hbound s ⟨q', hq'⟩
  obtain ⟨_, ha⟩ | ⟨p, c, hp, ha, ha'⟩ := t.cases_renameSite bound hold hnew a
  · obtain ⟨_, hb⟩ | ⟨q, d, hq, hb, hb'⟩ := t.cases_renameSite bound hold hnew b
    · rw [ha, hb, Label.mk.injEq, Nat.add_left_cancel_iff] at heq
      obtain ⟨i⟩ := a
      obtain ⟨j⟩ := b
      exact congrArg Label.mk heq
    · have hlt := hplaced hb'
      rw [← heq, ha] at hlt
      exact absurd hlt (Nat.not_lt.mpr (Nat.le_add_right _ _))
  · obtain ⟨_, hb⟩ | ⟨q, d, hq, hb, hb'⟩ := t.cases_renameSite bound hold hnew b
    · have hlt := hplaced ha'
      rw [heq, hb] at hlt
      exact absurd hlt (Nat.not_lt.mpr (Nat.le_add_right _ _))
    · -- both are sites of the one `new` that is right behind the renamed label
      rw [heq] at ha'
      have hshift := Code.eq_of_siteBefore? hnew.nodup ha' hb'
      have hkept := (node_of_instruction (t := t) hp rfl).1
      have hkept' := (node_of_instruction (t := t) hq rfl).1
      have hle := (shift_le_iff hkept').mp (Nat.le_of_eq hshift.symm)
      have hle' := (shift_le_iff hkept).mp (Nat.le_of_eq hshift)
      rw [Nat.le_antisymm hle hle', hb] at ha
      exact (Option.some.inj ha).symm

/-- The nodes before a position become the nodes before the shifted position. -/
theorem take_shift (t : Thinning old new) (p : Nat) :
    new.nodes.toList.take (t.shift p)
      = (old.nodes.toList.take p).filterMap (Node.thin t.relabel) := by
  have hsplit : new.nodes.toList = (old.nodes.toList.take p).filterMap (Node.thin t.relabel)
      ++ (old.nodes.toList.drop p).filterMap (Node.thin t.relabel) := by
    rw [← List.filterMap_append, List.take_append_drop, t.nodes]
  rw [hsplit, shift, List.take_left']
  rfl

/-- Thinning keeps all allocations. -/
theorem countP_isNew_thin (relabel : Label → Option Label) (nodes : List Node) :
    (nodes.filterMap (Node.thin relabel)).countP Node.isNew = nodes.countP Node.isNew := by
  rw [List.countP_filterMap]
  refine List.countP_congr fun node _ => ?_
  cases node with
  | label l => cases h : relabel l <;> simp [Node.thin, h, Node.isNew]
  | frame f => exact Iff.rfl
  | insn i => exact Iff.rfl
  | branch b => exact Iff.rfl

/-- A site and what it becomes come before the same `new`, counted from the start. -/
theorem ordinal?_renameSite (hold : old.Labelled) (hnew : new.Labelled)
    (hbound : ∀ l, new.Places l → l.id < bound) (s : Label) :
    new.ordinal? (t.renameSite bound s) = old.ordinal? s := by
  obtain ⟨hnone, heq⟩ | ⟨p, c, hp, hs, hs'⟩ := t.cases_renameSite bound hold hnew s
  · rw [hnone, heq]
    cases h : new.ordinal? ⟨bound + s.id⟩ with
    | none => rfl
    | some n =>
      -- beyond the bound no label is placed
      obtain ⟨p, c, _, hsite⟩ := Code.site_of_ordinal? h
      obtain ⟨q, _, hq⟩ := Code.node_of_siteBefore? hsite
      exact absurd (hbound _ ⟨q, hq⟩) (Nat.not_lt.mpr (Nat.le_add_right _ _))
  · rw [Code.ordinal?_of_site hold.nodup hp hs,
      Code.ordinal?_of_site hnew.nodup (node_of_instruction hp rfl).2 hs', t.take_shift,
      countP_isNew_thin]

end Thinning

/-! ## The directives

Both bodies have the same anchors, and the snapshots there differ by the renaming. Compression
compares values only for being equal, so compressed frames differ by it as well. -/

namespace JoinGraph.ThinsTo

variable {old new : Code} {t : Thinning old new} {r : Renaming} {g g' : JoinGraph}

/-- Instructions have the same anchors. -/
theorem map_snd_anchorsFrom (h : g.ThinsTo t r g') (nodes : List Node) (p q : Nat)
    (anchor : Option Label) :
    (anchorsFrom g' q anchor (nodes.filterMap (Node.thin t.relabel))).map (·.2)
      = (anchorsFrom g p anchor nodes).map (·.2) := by
  -- the two lists are gone through together; positions drift apart but anchors do not
  induction nodes generalizing p q anchor with
  | nil => rfl
  | cons node rest ih =>
    cases node with
    | frame f => exact ih (p + 1) q anchor
    | insn i =>
      cases anchor with
      | none => exact ih (p + 1) (q + 1) none
      | some l => exact congrArg (l :: ·) (ih (p + 1) (q + 1) none)
    | branch b =>
      cases anchor with
      | none => exact ih (p + 1) (q + 1) none
      | some l => exact congrArg (l :: ·) (ih (p + 1) (q + 1) none)
    | label l =>
      rw [anchorsFrom]
      by_cases hl : t.fixed l
      · rw [List.filterMap_cons_some (Node.thin_of_some (t.relabel_fixed l hl)), anchorsFrom,
          h.isJoin_eq]
        exact ih (p + 1) (q + 1) _
      · -- the label is no join point, whatever becomes of it
        rw [h.isJoin_of_not_fixed hl]
        cases hrelabel : t.relabel l with
        | none =>
          rw [List.filterMap_cons_none (Node.thin_of_none hrelabel)]
          exact ih (p + 1) q anchor
        | some l' =>
          have hl' : ¬ t.fixed l' := fun hfixed => hl (t.fixed_of_relabel l l' hrelabel hfixed)
          rw [List.filterMap_cons_some (Node.thin_of_some hrelabel), anchorsFrom, h.isJoin_eq,
            h.isJoin_of_not_fixed hl']
          exact ih (p + 1) (q + 1) anchor

/-- The same anchors are reached, with the sites in their snapshots renamed. -/
theorem map_snd_reachedAnchors (h : g.ThinsTo t r g') :
    (reachedAnchors g' new).map (·.2)
      = ((reachedAnchors g old).map (·.2)).map fun (l, s) => (l, s.map (VType.rename r)) := by
  -- a reached anchor is told by its label
  have hreached : ∀ g code, (reachedAnchors g code).map (·.2)
      = ((anchors g code).map (·.2)).filterMap fun l =>
          (g.frameAt? l).map fun f => (l, f.snapshot) := by
    intro g code
    unfold reachedAnchors
    rw [List.map_filterMap, List.filterMap_map]
    refine List.filterMap_congr fun pair _ => ?_
    rw [Option.map_map]
    rfl
  have hanchors : (anchors g' new).map (·.2) = (anchors g old).map (·.2) := by
    unfold anchors
    rw [t.nodes]
    exact h.map_snd_anchorsFrom _ 0 0 none
  rw [hreached, hreached, hanchors, List.map_filterMap]
  refine List.filterMap_congr fun l _ => ?_
  rw [h.frameAt?_eq, Option.map_map, Option.map_map]
  congr 1
  funext f
  exact congrArg (l, ·) (Frame.snapshot_rename r f)

end JoinGraph.ThinsTo

/-- A directive with the sites of its frames renamed. -/
def Directive.rename (r : Renaming) (d : Directive) : Directive :=
  ⟨d.label, d.snapshot.map (VType.rename r), d.frame.map (VType.rename r)⟩

/-- Compressing renamed snapshots gives renamed frames, since sites are renamed one-to-one. -/
theorem directivesFrom_rename (r : Renaming) (previous : Snapshot VType)
    (pairs : List (Label × Snapshot VType)) :
    directivesFrom (previous.map (VType.rename r))
        (pairs.map fun (l, s) => (l, s.map (VType.rename r)))
      = (directivesFrom previous pairs).map (Directive.rename r) := by
  induction pairs generalizing previous with
  | nil => rfl
  | cons pair rest ih =>
    obtain ⟨l, s⟩ := pair
    rw [List.map_cons, directivesFrom, directivesFrom, List.map_cons, ih,
      Snapshot.compress_map (VType.rename_injective r)]
    rfl

theorem Snapshot.map_map {α β γ : Type} (f : α → β) (g : β → γ) (s : Snapshot α) :
    (s.map f).map g = s.map (g ∘ f) := by
  unfold map
  rw [List.map_map, List.map_map]

theorem StackMapFrame.map_map {α β γ : Type} (f : α → β) (g : β → γ) (frame : StackMapFrame α) :
    (frame.map f).map g = frame.map (g ∘ f) := by
  cases frame with
  | append extra =>
    rw [map, map, map, List.map_map]
  | full s =>
    rw [map, map, map, Snapshot.map_map]
  | _ => rfl

/-- A renaming that keeps ordinals does not show when allocations are told by them. -/
theorem Directive.told_rename {old new : Code} {r : Renaming}
    (h : ∀ s, new.ordinal? (r.label s) = old.ordinal? s) (d : Directive) :
    (d.rename r).told new = d.told old := by
  have hvalue : VType.told new ∘ VType.rename r = VType.told old := by
    funext v
    cases v with
    | uninitialized u =>
      show VerificationType.uninitialized (u.className, new.ordinal? (r.label u.site)) = _
      rw [h]
      rfl
    | _ => rfl
  unfold Directive.told Directive.rename
  rw [Snapshot.map_map, StackMapFrame.map_map, hvalue]

/-! ## Analysis

Two runs go in step until they end, and what is concluded from their ends is alike. -/

/-- Two analyses say the same about their bodies, if allocations are told by their order. -/
structure Analysis.Alike (code code' : Code) (a a' : Analysis) : Prop where
  maxStack : a'.maxStack = a.maxStack
  maxLocals : a'.maxLocals = a.maxLocals
  entry : a'.entry = a.entry
  frames : a'.frames.map (Directive.told code') = a.frames.map (Directive.told code)

/-- Both bodies have been analyzed without success, or both with success and alike. -/
def Report.Alike (report report' : Report) : Prop :=
  Agree (Analysis.Alike report.code report'.code) report.result report'.result

section

variable {old new : Code} {t : Thinning old new} {r : Renaming} {m m' : Machine}
variable {method : Method} {oracle : Oracle}

/-- The two machines start in step, with the same frame. -/
theorem Machine.ThinsTo.start {graph graph' : JoinGraph} (h : graph.ThinsTo t r graph') :
    (Machine.start (.plain method oracle old) graph).ThinsTo t r
      (Machine.start (.plain method oracle new) graph') where
  graph := h
  work := by
    show [(0, Frame.entry method)] = [(t.shift 0, (Frame.entry method).rename r)]
    rw [Thinning.shift_zero, Frame.rename_entry]
  path := rfl
  maxima := rfl

/-- What is concluded from machines in step is alike. -/
theorem Machine.ThinsTo.agree_conclude (h : m.ThinsTo t r m') (method : Method)
    (hordinal : ∀ s, new.ordinal? (r.label s) = old.ordinal? s) :
    Agree (fun a a' => Analysis.Alike old new a.1 a'.1) (Analysis.conclude method old m)
      (Analysis.conclude method new m') := by
  -- there are no allocations in the frame on entry
  have hentry : ((Frame.entry method).snapshot).map (VType.rename r)
      = (Frame.entry method).snapshot := by
    rw [← Frame.snapshot_rename, Frame.rename_entry]
  have hframes : directivesFrom (Frame.entry method).snapshot ((reachedAnchors m'.graph new).map (·.2))
      = (directivesFrom (Frame.entry method).snapshot
          ((reachedAnchors m.graph old).map (·.2))).map (Directive.rename r) := by
    rw [h.graph.map_snd_reachedAnchors, ← directivesFrom_rename, hentry]
  unfold Analysis.conclude
  rw [h.maxima]
  split
  · trivial
  · split
    · trivial
    · refine ⟨rfl, rfl, rfl, ?_⟩
      dsimp only
      rw [hframes, List.map_map]
      exact List.map_congr_left fun d _ => Directive.told_rename hordinal d

/-- Runs that end alike are reported alike. -/
theorem Machine.EndLike.alike {result result' : Machine × Option Error}
    (h : EndLike t r result result') (hordinal : ∀ s, new.ordinal? (r.label s) = old.ordinal? s) :
    (Analysis.report .plain (.plain method oracle old) result.1 result.2).Alike
      (Analysis.report .plain (.plain method oracle new) result'.1 result'.2) := by
  cases h with
  | failed m m' e e' => trivial
  | finished hm =>
    unfold Report.Alike Analysis.report
    -- both runs may still be refused for their maxima, which are equal
    obtain ⟨e, e', hx, hy, _⟩ | ⟨⟨a, woven⟩, ⟨a', woven'⟩, hx, hy, halike⟩ :=
      (hm.agree_conclude method hordinal).cases
    · simp only [Body.plain, hx, hy]
      trivial
    · simp only [Body.plain, hx, hy]
      exact halike

end

/-- The sites of a labelled body can be renamed to those of the body without its frames. -/
theorem Code.exists_renaming {code : Code} (hlabels : ∀ l, code.Places l → ¬ code.HandsOut l)
    (hnodup : code.labelAllocations.labels.Nodup)
    (t : Thinning code.labelAllocations code.removeFrames.labelAllocations) :
    ∃ r : Renaming, t.Renames r ∧ ∀ s, code.removeFrames.labelAllocations.ordinal? (r.label s)
      = code.labelAllocations.ordinal? s := by
  have hold := labelled_labelAllocations hnodup
  have hnew := labelled_labelAllocations ((nodup_labels_removeFrames_iff hlabels).mpr hnodup)
  -- sites that no `new` has are sent beyond all labels, to keep the renaming one-to-one
  obtain ⟨bound, hbound⟩ :=
    (code.removeFrames.labelAllocations.labels.map Label.id).toFinset.exists_nat_subset_range
  have hbound : ∀ l, code.removeFrames.labelAllocations.Places l → l.id < bound := by
    intro l hl
    have hmem := List.mem_map_of_mem (f := Label.id) (places_iff_mem_labels.mp hl)
    exact Finset.mem_range.mp (hbound (List.mem_toFinset.mpr hmem))
  refine ⟨⟨t.renameSite bound, Thinning.renameSite_injective hold hnew hbound⟩, ?_,
    Thinning.ordinal?_renameSite hold hnew hbound⟩
  -- a `new` is found in both bodies, each with a label right before it
  intro p c hp
  obtain ⟨s, hs⟩ := hold.site p c hp
  obtain ⟨s', hs'⟩ := hnew.site _ c (Thinning.node_of_instruction (t := t) hp rfl).2
  rw [hs, hs']
  exact congrArg some (Thinning.renameSite_of_site hnodup hp hs hs').symm

namespace Analysis

variable {oracle : Oracle} {method : Method} {code : Code} {ranges : List ProtectedRange}

theorem analyze_plain_of_build_error {e : Error} (code : Code)
    (hbuild : JoinGraph.build oracle code.labelAllocations ranges = .error e) (fuel : Nat) :
    analyze fuel oracle .plain method code ranges = some ⟨code.labelAllocations, [], .error e⟩ :=
  analyze_of_build_error hbuild

/-- Analysis without further settings reports on the run in the labelled body. -/
theorem analyze_plain_eq_some_iff {graph : JoinGraph} (code : Code)
    (hbuild : JoinGraph.build oracle code.labelAllocations ranges = .ok graph) {fuel : Nat}
    {report : Report} :
    analyze fuel oracle .plain method code ranges = some report
      ↔ ∃ result, Machine.run (.plain method oracle code.labelAllocations) fuel
          (.start (.plain method oracle code.labelAllocations) graph) = some result
        ∧ Analysis.report .plain (.plain method oracle code.labelAllocations) result.1 result.2
          = report := by
  have hanalyze : analyze fuel oracle .plain method code ranges = _ := analyze_of_build_ok hbuild
  rw [hanalyze, Option.map_eq_some_iff]
  rfl

/-- What both runs have in common: neither starts, or they start in step, in bodies where
allocations correspond. -/
theorem cases_of_builds (oracle : Oracle)
    (hlabels : ∀ l, code.Places l ∨ code.Refers ranges l → ¬ code.HandsOut l) :
    (∃ e e', JoinGraph.build oracle code.labelAllocations ranges = .error e
        ∧ JoinGraph.build oracle code.removeFrames.labelAllocations ranges = .error e')
      ∨ ∃ (t : Thinning code.labelAllocations code.removeFrames.labelAllocations) (r : Renaming)
          (graph graph' : JoinGraph),
        JoinGraph.build oracle code.labelAllocations ranges = .ok graph
          ∧ JoinGraph.build oracle code.removeFrames.labelAllocations ranges = .ok graph'
          ∧ graph.ThinsTo t r graph' ∧ t.Renames r
          ∧ ∀ s, code.removeFrames.labelAllocations.ordinal? (r.label s)
            = code.labelAllocations.ordinal? s := by
  have hplaces : ∀ l, code.Places l → ¬ code.HandsOut l := fun l hl => hlabels l (Or.inl hl)
  obtain ⟨t, ht⟩ := Code.exists_thinning hplaces
  have hrefers : ∀ l, code.labelAllocations.Refers ranges l → t.fixed l := fun l hl =>
    (ht l).mpr (hlabels l (Or.inr (Code.refers_of_labelAllocations hl)))
  have hnodups := Code.nodup_labels_removeFrames_iff hplaces
  have hagree := fun r => JoinGraph.agree_build t r oracle hnodups hrefers
  cases hbuild : JoinGraph.build oracle code.labelAllocations ranges with
  | error e =>
    -- any renaming will do to see that the labels are wrong in both bodies
    obtain ⟨_, e', _, he', _⟩ | ⟨_, _, hok, _⟩ := (hagree ⟨id, fun _ _ h => h⟩).cases
    · exact Or.inl ⟨e, e', rfl, he'⟩
    · rw [hbuild] at hok
      cases hok
  | ok graph =>
    -- no label is placed twice, which it takes to rename sites
    obtain ⟨r, hr, hordinal⟩ :=
      Code.exists_renaming hplaces (JoinGraph.nodup_labels_of_build hbuild) t
    obtain ⟨_, _, herror, _⟩ | ⟨_, graph', hok, hbuild', hthins⟩ := (hagree r).cases
    · rw [hbuild] at herror
      cases herror
    · rw [hbuild] at hok
      cases hok
      exact Or.inr ⟨t, r, graph, graph', rfl, hbuild', hthins, hr, hordinal⟩

/-- Every allocation in an emitted frame has its place among the `new`s of the body. -/
theorem exists_ordinal {fuel : Nat} {report : Report} {analysis : Analysis}
    (h : analyze fuel oracle .plain method code ranges = some report)
    (hok : report.result = .ok analysis) {d : Directive} (hd : d ∈ analysis.frames)
    {c : ClassName} {s : Label}
    (hv : .uninitialized ⟨c, s⟩ ∈ d.snapshot.locals ++ d.snapshot.stack) :
    ∃ n, report.code.ordinal? s = some n := by
  obtain ⟨graph, m, woven, hbuild, hrun, hconclude, hcode⟩ := concluded_of_ok h hok
  obtain ⟨p, hp, hsite⟩ := traced_of_directive rfl hbuild hrun hconclude hd _ hv
  rw [hcode]
  exact ⟨_, Code.ordinal?_of_site (JoinGraph.nodup_labels_of_build hbuild) hp hsite⟩

/-- Frames in a body make no difference to its analysis: that of the body and that of the body
without its frames both fail or both succeed. If they succeed they say the same, and give the same
frames at the same labels once every allocation is told by the ordinal of its `new`, which it always
has. The labels that are handed out during analysis must not be in use before, neither in the body
nor in the exception table; they are not if all labels there come from the body. -/
theorem frames_make_no_difference (oracle : Oracle) (method : Method)
    (hlabels : ∀ l, code.Places l ∨ code.Refers ranges l → ¬ code.HandsOut l) :
    (∀ fuel report, analyze fuel oracle .plain method code ranges = some report →
        ∃ fuel' report', analyze fuel' oracle .plain method code.removeFrames ranges = some report'
          ∧ report.Alike report')
      ∧ (∀ fuel' report',
        analyze fuel' oracle .plain method code.removeFrames ranges = some report' →
        ∃ fuel report, analyze fuel oracle .plain method code ranges = some report
          ∧ report.Alike report')
      ∧ ∀ fuel report analysis, analyze fuel oracle .plain method code ranges = some report →
        report.result = .ok analysis → ∀ d ∈ analysis.frames, ∀ c s,
          .uninitialized ⟨c, s⟩ ∈ d.snapshot.locals ++ d.snapshot.stack →
          ∃ n, report.code.ordinal? s = some n := by
  have hcases := cases_of_builds oracle hlabels
  refine ⟨fun fuel report h => ?_, fun fuel' report' h => ?_,
    fun fuel report analysis h hok d hd c s hv => exists_ordinal h hok hd hv⟩
  · -- the labels are wrong in both bodies, or the two runs go in step
    obtain ⟨e, e', he, he'⟩ | ⟨t, r, graph, graph', hbuild, hbuild', hthins, hr, hordinal⟩ := hcases
    · rw [analyze_plain_of_build_error code he] at h
      cases h
      exact ⟨0, _, analyze_plain_of_build_error code.removeFrames he' 0, trivial⟩
    · obtain ⟨result, hrun, rfl⟩ := (analyze_plain_eq_some_iff code hbuild).mp h
      obtain ⟨fuel', result', hrun', hends⟩ := (Machine.ThinsTo.start hthins).exists_run_new hr hrun
      exact ⟨fuel', _, (analyze_plain_eq_some_iff code.removeFrames hbuild').mpr ⟨result', hrun', rfl⟩,
        hends.alike hordinal⟩
  · obtain ⟨e, e', he, he'⟩ | ⟨t, r, graph, graph', hbuild, hbuild', hthins, hr, hordinal⟩ := hcases
    · rw [analyze_plain_of_build_error code.removeFrames he'] at h
      cases h
      exact ⟨0, _, analyze_plain_of_build_error code he 0, trivial⟩
    · obtain ⟨result', hrun', rfl⟩ := (analyze_plain_eq_some_iff code.removeFrames hbuild').mp h
      obtain ⟨fuel, result, hrun, hends⟩ := (Machine.ThinsTo.start hthins).exists_run_old hr hrun'
      exact ⟨fuel, _, (analyze_plain_eq_some_iff code hbuild).mpr ⟨result, hrun, rfl⟩,
        hends.alike hordinal⟩

end Analysis

/-! ## A frame between a label and its allocation

With a frame in between, the label is not right before its `new`, which is given another one. -/

namespace Parted

/-- A frame stands between the allocation of the detour and its label. -/
def code : Code where
  nodes := #[
    .branch (.goto ⟨0⟩),
    .label ⟨0⟩,
    .frame (.chop 1),
    .insn (.new .string),
    .insn (.store .reference 0),
    .branch (.goto ⟨1⟩),
    .label ⟨1⟩,
    .branch .returnVoid]
  nextLabel := 2

/-- The allocation is given another label than in the detour. -/
theorem analyze_ok : ∃ report analysis,
    analyze 40 Hierarchy.javaLang.common .plain Detour.method code [] = some report
      ∧ report.result = .ok analysis
      ∧ ∃ d ∈ analysis.frames, d.snapshot = ⟨[.uninitialized ⟨.string, ⟨2⟩⟩], []⟩ :=
  ⟨_, _, rfl, rfl, _, List.mem_cons_of_mem _ (List.mem_singleton_self _), rfl⟩

/-- The labels of this body are all below those that analysis hands out. -/
theorem not_handsOut (l : Label) (h : code.Places l ∨ code.Refers [] l) : ¬ code.HandsOut l := by
  have hlabels : ∀ l ∈ code.labels ++ JoinGraph.jumpTargets code.nodes.toList, l.id < 2 := by decide
  have hmem : l ∈ code.labels ++ JoinGraph.jumpTargets code.nodes.toList := by
    rcases h with hplaces | hjumps | ⟨range, hrange, _⟩
    · exact List.mem_append_left _ (Code.places_iff_mem_labels.mp hplaces)
    · exact List.mem_append_right _ (Code.jumpsTo_iff_mem_jumpTargets.mp hjumps)
    · cases hrange
  exact Code.not_handsOut_of_lt (hlabels l hmem)

end Parted

namespace Analysis

/-- Without the frame the allocation has the label of the jump for its site, but it is the first in
both bodies. -/
theorem frames_make_no_difference_parted :
    (∀ l, Parted.code.Places l ∨ Parted.code.Refers [] l → ¬ Parted.code.HandsOut l)
      ∧ Parted.code.removeFrames = Detour.code
      ∧ ∃ report analysis,
        analyze 40 Hierarchy.javaLang.common .plain Detour.method Parted.code [] = some report
        ∧ report.result = .ok analysis
        ∧ (∃ d ∈ analysis.frames, d.snapshot = ⟨[.uninitialized ⟨.string, ⟨2⟩⟩], []⟩
          ∧ ∃ n, report.code.ordinal? ⟨2⟩ = some n)
        ∧ ∃ fuel report',
          analyze fuel Hierarchy.javaLang.common .plain Detour.method Detour.code [] = some report'
          ∧ report.Alike report' := by
  have hremove : Parted.code.removeFrames = Detour.code := by decide
  obtain ⟨report, analysis, h, hok, d, hd, hsnapshot⟩ := Parted.analyze_ok
  obtain ⟨hsame, _, hordinals⟩ := frames_make_no_difference Hierarchy.javaLang.common
    Detour.method Parted.not_handsOut
  have hordinal := hordinals 40 report analysis h hok d hd .string ⟨2⟩ (by
    rw [hsnapshot]
    exact List.mem_singleton_self _)
  -- without its frame this is the body of the detour
  rw [hremove] at hsame
  exact ⟨Parted.not_handsOut, hremove, report, analysis, h, hok, ⟨d, hd, hsnapshot, hordinal⟩, hsame 40 report h⟩

end Analysis

end JvmFrames
