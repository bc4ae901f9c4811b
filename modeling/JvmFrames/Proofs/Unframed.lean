import Mathlib.Logic.Function.Basic
import JvmFrames.Proofs.Labelling
import JvmFrames.Proofs.Thinning

/-!
# Labelling a body without its frames

A frame between a label and a `new` makes labelling put another label there. So a body and the same
body without its frames are not given the same labels, nor as many. But the labelled body thins to
the other one (`Code.exists_thinning`), and no label that was there before is changed.
-/

namespace JvmFrames

/-- What becomes of labels, if only those from `lo` up to `hi` are renamed or taken out. -/
structure Relabels (lo hi : Nat) (relabel : Label → Option Label) : Prop where
  same : ∀ l : Label, ¬ (lo ≤ l.id ∧ l.id < hi) → relabel l = some l
  inside : ∀ l l' : Label, lo ≤ l.id ∧ l.id < hi → relabel l = some l' → lo ≤ l'.id ∧ l'.id < hi

namespace Relabels

variable {lo hi next : Nat} {relabel : Label → Option Label} {result : Option Label}

/-- One label of the range may be taken out or renamed within the range. -/
theorem update (h : Relabels lo hi relabel) (hnext : lo ≤ next ∧ next < hi)
    (hresult : ∀ l, result = some l → lo ≤ l.id ∧ l.id < hi) :
    Relabels lo hi (Function.update relabel ⟨next⟩ result) where
  same := by
    intro l hl
    rw [Function.update_of_ne, h.same l hl]
    rintro rfl
    exact hl hnext
  inside := by
    intro l l' hl hrelabel
    by_cases heq : l = ⟨next⟩
    · rw [heq, Function.update_self] at hrelabel
      exact hresult l' hrelabel
    · rw [Function.update_of_ne heq] at hrelabel
      exact h.inside l l' hl hrelabel

end Relabels

/-- What becomes of a label matters only where it is placed. -/
theorem filterMap_thin_update {relabel : Label → Option Label} {l : Label} {nodes : List Node}
    (h : l ∉ nodes.filterMap Node.label?) (result : Option Label) :
    nodes.filterMap (Node.thin (Function.update relabel l result))
      = nodes.filterMap (Node.thin relabel) := by
  refine List.filterMap_congr fun node hnode => ?_
  cases node with
  | label l' =>
    have hne : l' ≠ l := by
      rintro rfl
      exact h (List.mem_filterMap.mpr ⟨_, hnode, rfl⟩)
    rw [Node.thin, Node.thin, Function.update_of_ne hne]
  | _ => rfl

/-- A label that is handed out before a list is labelled is not in the result. -/
theorem not_mem_labelAllocations (afterLabel : Bool) {next : Nat} {nodes : List Node}
    (h : ⟨next⟩ ∉ nodes.filterMap Node.label?) :
    ⟨next⟩ ∉ (labelAllocations afterLabel (next + 1) nodes).1.filterMap Node.label? := by
  intro hmem
  rcases List.mem_append.mp ((perm_labels_labelAllocations _ _ _).mem_iff.mp hmem) with hold | hnew
  · exact h hold
  · obtain ⟨id, hid, heq⟩ := List.mem_map.mp hnew
    have hle := (List.mem_range'_1.mp hid).1
    cases heq
    omega

/-- The first result of labelling thins to the second, and has taken as many labels or more. -/
def LabelledAlike (lo hi : Nat) (result result' : List Node × Nat) : Prop :=
  ∃ relabel, Relabels lo hi relabel ∧ result'.1 = result.1.filterMap (Node.thin relabel)
    ∧ result'.2 ≤ result.2

namespace LabelledAlike

variable {lo hi next next' last last' : Nat} {nodes nodes' : List Node}

/-- Both are given a label. -/
theorem label (h : LabelledAlike lo hi (nodes, last) (nodes', last'))
    (hnext : lo ≤ next ∧ next < hi) (hnext' : lo ≤ next' ∧ next' < hi)
    (hfresh : ⟨next⟩ ∉ nodes.filterMap Node.label?) :
    LabelledAlike lo hi (.label ⟨next⟩ :: nodes, last) (.label ⟨next'⟩ :: nodes', last') := by
  obtain ⟨relabel, hrelabel, heq, hle⟩ := h
  refine ⟨Function.update relabel ⟨next⟩ (some ⟨next'⟩), hrelabel.update hnext ?_, ?_, hle⟩
  · intro l hl
    cases hl
    exact hnext'
  · have hupdate : Function.update relabel ⟨next⟩ (some ⟨next'⟩) ⟨next⟩ = some ⟨next'⟩ :=
      Function.update_self ..
    rw [List.filterMap_cons_some (Node.thin_of_some hupdate), filterMap_thin_update hfresh]
    exact congrArg _ heq

/-- Only the first is given a label. -/
theorem drop_label (h : LabelledAlike lo hi (nodes, last) (nodes', last'))
    (hnext : lo ≤ next ∧ next < hi) (hfresh : ⟨next⟩ ∉ nodes.filterMap Node.label?) :
    LabelledAlike lo hi (.label ⟨next⟩ :: nodes, last) (nodes', last') := by
  obtain ⟨relabel, hrelabel, heq, hle⟩ := h
  refine ⟨Function.update relabel ⟨next⟩ none, hrelabel.update hnext nofun, ?_, hle⟩
  have hupdate : Function.update relabel ⟨next⟩ none ⟨next⟩ = none := Function.update_self ..
  rw [List.filterMap_cons_none (Node.thin_of_none hupdate), filterMap_thin_update hfresh]
  exact heq

theorem drop_frame (h : LabelledAlike lo hi (nodes, last) (nodes', last'))
    (f : StackMapFrame VType) : LabelledAlike lo hi (.frame f :: nodes, last) (nodes', last') :=
  h

/-- Both lists may have the same node in front, if it is neither a frame nor a label of the
range. -/
theorem keep (h : LabelledAlike lo hi (nodes, last) (nodes', last')) {node : Node}
    (hframe : node.isFrame = false)
    (hlabel : ∀ l, node = .label l → ¬ (lo ≤ l.id ∧ l.id < hi)) :
    LabelledAlike lo hi (node :: nodes, last) (node :: nodes', last') := by
  obtain ⟨relabel, hrelabel, heq, hle⟩ := h
  have hthin : node.thin relabel = some node := by
    cases node with
    | label l => exact Node.thin_of_some (hrelabel.same l (hlabel l rfl))
    | frame f => cases hframe
    | _ => rfl
  refine ⟨relabel, hrelabel, ?_, hle⟩
  rw [List.filterMap_cons_some hthin]
  exact congrArg _ heq

end LabelledAlike

/-- Labelling the allocations of a list gives all the labels that it gives once the frames are taken
out. It gives one more where nothing but frames is between a label and a `new`. -/
theorem labelledAlike_filter {lo hi : Nat} {afterLabel : Bool} {next : Nat} {nodes : List Node}
    (hhi : (labelAllocations afterLabel next nodes).2 ≤ hi)
    (hlabels : ∀ l ∈ nodes.filterMap Node.label?, ¬ (lo ≤ l.id ∧ l.id < hi))
    {afterLabel' : Bool} {next' : Nat} (hafter : afterLabel = true → afterLabel' = true)
    (hlo : lo ≤ next') (hnext : next' ≤ next) :
    LabelledAlike lo hi (labelAllocations afterLabel next nodes)
      (labelAllocations afterLabel' next' (nodes.filter fun node => !node.isFrame)) := by
  induction afterLabel, next, nodes using labelAllocations_induction
    generalizing afterLabel' next' with
  | hnil afterLabel next =>
    exact ⟨some, ⟨fun _ _ => rfl, fun l l' hl heq => by cases heq; exact hl⟩, rfl, hnext⟩
  | hnew next c rest ih =>
    rw [labelAllocations_new] at hhi ⊢
    rw [List.filter_cons_of_pos rfl]
    have hlast := le_labelAllocations false (next + 1) rest
    have hin : lo ≤ next ∧ next < hi := ⟨Nat.le_trans hlo hnext, Nat.lt_of_lt_of_le hlast hhi⟩
    have hplaced : ⟨next⟩ ∉ rest.filterMap Node.label? := fun hmem => hlabels ⟨next⟩ hmem hin
    have hfresh := not_mem_labelAllocations false hplaced
    have hnew : ∀ l, Node.insn (.new c) = .label l → ¬ (lo ≤ l.id ∧ l.id < hi) := nofun
    cases afterLabel' with
    | false =>
      -- the `new` is behind no label, with or without frames
      rw [labelAllocations_new]
      have hrest := ih hhi hlabels id (Nat.le_succ_of_le hlo) (Nat.succ_le_succ hnext)
      exact (hrest.keep rfl hnew).label hin ⟨hlo, Nat.lt_of_le_of_lt hnext hin.2⟩ hfresh
    | true =>
      -- with the frame gone, the `new` is right behind a label that was there
      rw [labelAllocations_cons next' _ fun _ _ => rfl]
      have hrest := ih hhi hlabels id hlo (Nat.le_succ_of_le hnext)
      exact (hrest.keep rfl hnew).drop_label hin hfresh
  | hcons afterLabel next node rest hnode ih =>
    rw [labelAllocations_cons next rest hnode] at hhi ⊢
    have hrest : ∀ l ∈ rest.filterMap Node.label?, ¬ (lo ≤ l.id ∧ l.id < hi) := by
      intro l hl
      rw [mem_filterMap_label?] at hl
      exact hlabels l (mem_filterMap_label?.mpr (List.mem_cons_of_mem _ hl))
    by_cases hframe : node.isFrame = true
    · -- a label that was before the frame is still remembered where the frame is gone
      rw [List.filter_cons_of_neg (by simp [hframe])]
      cases node with
      | frame f => exact (ih hhi hrest (by nofun) hlo hnext).drop_frame f
      | _ => cases hframe
    · have hframe := Bool.eq_false_iff.mpr hframe
      rw [List.filter_cons_of_pos (by simp [hframe]),
        labelAllocations_cons next' _ fun c hc => hafter (hnode c hc)]
      refine (ih hhi hrest id hlo hnext).keep hframe ?_
      rintro l rfl
      exact hlabels l (mem_filterMap_label?.mpr (List.mem_cons_self ..))

namespace Code

/-- A label that is handed out when the allocations of the body are labelled. One that the body has
handed out before never is. -/
def HandsOut (code : Code) (l : Label) : Prop :=
  code.nextLabel ≤ l.id ∧ l.id < code.labelAllocations.nextLabel

variable {code : Code}

/-- Labels that the body has handed out are not handed out again. -/
theorem not_handsOut_of_lt {l : Label} (h : l.id < code.nextLabel) : ¬ code.HandsOut l :=
  fun hhands => Nat.not_lt.mpr hhands.1 h

theorem labels_removeFrames (code : Code) : code.removeFrames.labels = code.labels := by
  unfold labels removeFrames
  rw [Array.toList_filter, List.filterMap_filter]
  refine List.filterMap_congr fun node _ => ?_
  cases node <;> rfl

/-- A labelled body thins to the labelled body without its frames, if it places no label that is
handed out. -/
theorem labelledAlike_removeFrames (h : ∀ l, code.Places l → ¬ code.HandsOut l) :
    LabelledAlike code.nextLabel code.labelAllocations.nextLabel
      (JvmFrames.labelAllocations false code.nextLabel code.nodes.toList)
      (JvmFrames.labelAllocations false code.nextLabel code.removeFrames.nodes.toList) := by
  have hnodes : code.removeFrames.nodes.toList
      = code.nodes.toList.filter fun node => !node.isFrame := by
    unfold removeFrames
    rw [Array.toList_filter]
  rw [hnodes]
  refine labelledAlike_filter (Nat.le_refl _) (fun l hl => ?_) id (Nat.le_refl _) (Nat.le_refl _)
  exact h l (places_iff_mem_labels.mpr hl)

/-- A labelled body thins to what the body without its frames is labelled to. -/
theorem exists_thinning (h : ∀ l, code.Places l → ¬ code.HandsOut l) :
    ∃ t : Thinning code.labelAllocations code.removeFrames.labelAllocations,
      ∀ l, t.fixed l ↔ ¬ code.HandsOut l := by
  obtain ⟨relabel, hrelabel, hnodes, _⟩ := labelledAlike_removeFrames h
  refine ⟨⟨relabel, fun l => ¬ code.HandsOut l, hnodes, hrelabel.same, ?_⟩, fun l => Iff.rfl⟩
  exact fun l l' heq hl' hl => hl' (hrelabel.inside l l' hl heq)

/-- Labels that are handed out are new, if the body places none of them. -/
theorem nodup_labels_labelAllocations_iff (h : ∀ l ∈ code.labels, ¬ code.HandsOut l) :
    code.labelAllocations.labels.Nodup ↔ code.labels.Nodup := by
  rw [code.perm_labels_labelAllocations.nodup_iff, List.nodup_append]
  constructor
  · exact fun hall => hall.1
  · intro hnodup
    refine ⟨hnodup, ?_, ?_⟩
    · exact List.Nodup.map (fun a b heq => by cases heq; rfl) List.nodup_range'
    · rintro l hl _ hl' rfl
      obtain ⟨id, hid, rfl⟩ := List.mem_map.mp hl'
      obtain ⟨hlo, hhi⟩ := List.mem_range'_1.mp hid
      have hhi : id < code.labelAllocations.nextLabel := by omega
      exact h _ hl ⟨hlo, hhi⟩

/-- The labelled body places a label twice exactly if it does without its frames. -/
theorem nodup_labels_removeFrames_iff (h : ∀ l, code.Places l → ¬ code.HandsOut l) :
    code.removeFrames.labelAllocations.labels.Nodup ↔ code.labelAllocations.labels.Nodup := by
  obtain ⟨_, _, _, hle⟩ := labelledAlike_removeFrames h
  have hout : ∀ l ∈ code.labels, ¬ code.HandsOut l :=
    fun l hl => h l (places_iff_mem_labels.mpr hl)
  rw [nodup_labels_labelAllocations_iff hout, nodup_labels_labelAllocations_iff,
    labels_removeFrames]
  rw [labels_removeFrames]
  exact fun l hl hhands => hout l hl ⟨hhands.1, Nat.lt_of_lt_of_le hhands.2 hle⟩

/-- Labelling adds no jumps. -/
theorem refers_of_labelAllocations {ranges : List ProtectedRange} {l : Label}
    (h : code.labelAllocations.Refers ranges l) : code.Refers ranges l := by
  rcases h with ⟨p, b, hp, hl⟩ | hrange
  · left
    rw [← Array.getElem?_toList] at hp
    have hmem := mem_of_mem_labelAllocations (List.mem_of_getElem? hp) rfl
    exact jumpsTo_iff_mem_jumpTargets.mpr (JoinGraph.mem_jumpTargets hmem hl)
  · exact Or.inr hrange

end Code

end JvmFrames
