import JvmFrames.Proofs.JoinGraph.Refusal
import JvmFrames.Proofs.MergeOrder

/-!
# Merging a frame that has been seen

A frame that arrives at a join point for a second time is passed over. Merging it again would indeed
change nothing, unless there is an allocation in the merged frame by now: an object gives way to an
allocation of its class, and what had gone into the object before need not merge with the
allocation.

`VType.Absorbed` says what a value may have become in later merges. Each merge keeps it, so it holds
of every frame seen at a join point (`JoinPoint.Absorbs`), and from it follows exactly what merging
the frame again does (`Frame.Absorbed.exists_merge`).
-/

namespace JvmFrames

namespace VType

variable {oracle : Oracle} {u v w : VType}

/-- What a value may become when others are merged into it: a value it may be assigned to, or an
allocation that an object above it has given way to. -/
inductive Absorbed (oracle : Oracle) : VType → VType → Prop where
  | below (v w : VType) (h : v.Assignable oracle w) : Absorbed oracle v w
  | null (a : Allocation) : Absorbed oracle .null (.uninitialized a)
  | object (t : RefType) (a : Allocation) : Absorbed oracle (.object t) (.uninitialized a)

/-- If the second value is an allocation, the first is the same one or an object of its class. -/
def Upholds (v w : VType) : Prop :=
  ∀ a, w = .uninitialized a → v = .uninitialized a ∨ v = .object (.object a.className)

namespace Absorbed

theorem refl (v : VType) : v.Absorbed oracle v := .below v v (.refl v)

theorem assignable (h : v.Absorbed oracle w) (hw : w.Settled) : v.Assignable oracle w := by
  cases h with
  | below _ _ h => exact h
  | null a => exact absurd rfl (hw a)
  | object t a => exact absurd rfl (hw a)

/-- What was absorbed by something absorbed is absorbed: an allocation may take the place of an
object, but nothing takes the place of an allocation. -/
theorem trans (hlaw : Oracle.Lawful oracle) (huv : u.Absorbed oracle v)
    (hvw : v.Absorbed oracle w) : u.Absorbed oracle w := by
  cases hvw with
  | below _ _ hvw =>
    cases hvw with
    | refl => exact huv
    | top => exact .below u _ (.top u)
    | null t => exact .below u _ ((huv.assignable nofun).trans hlaw (.null t))
    | object a b hab => exact .below u _ ((huv.assignable nofun).trans hlaw (.object a b hab))
  -- an allocation has taken the place of `v`, so `u` went into `v` by assignment
  | null a =>
    cases huv.assignable nofun with
    | refl => exact .null a
  | object t a =>
    cases huv.assignable nofun with
    | refl => exact .object t a
    | null _ => exact .null a
    | object s _ _ => exact .object s a

theorem width_eq (h : v.Absorbed oracle w) (hw : w ≠ .top) : width v = width w := by
  cases h with
  | below _ _ h => exact h.width_eq hw
  | null a => rfl
  | object t a => rfl

theorem ne_top (h : v.Absorbed oracle w) (hw : w ≠ .top) : v ≠ .top := by
  cases h with
  | below _ _ h => exact h.ne_top hw
  | null a => nofun
  | object t a => nofun

/-- Merging a value into what has absorbed it changes nothing, exactly if it upholds it. -/
theorem merge_eq_iff (hlaw : Oracle.Lawful oracle) (hanti : Oracle.Antisymm oracle)
    (h : v.Absorbed oracle w) : w.merge oracle v = w ↔ v.Upholds w := by
  -- without an allocation the merge is the upper one of two comparable values
  by_cases hw : w.Settled
  · refine iff_of_true ?_ fun a ha => absurd ha (hw a)
    cases h.assignable hw with
    | refl => exact merge_self v
    | top => rfl
    | null t => exact merge_object_null t
    | object a b hab =>
      rw [merge_object_object, hlaw.comm hanti, hab, ite_self]
  · simp only [Settled, not_forall, not_not] at hw
    obtain ⟨a, rfl⟩ := hw
    rw [merge_eq_uninitialized_iff]
    simp [Upholds]

/-- On a stack, what was absorbed may be merged again. -/
theorem fits (h : v.Absorbed oracle w) (hwidth : width v = width w) : w.Fits oracle v := by
  refine ⟨hwidth.symm, ?_⟩
  rcases width_eq_one_or_two w with hnarrow | hwide
  · rw [width_merge_of_narrow hnarrow, hnarrow]
  · -- a wide value is absorbed by itself alone
    have hsettled : w.Settled := fun a ha => by
      rw [ha] at hwide
      cases hwide
    cases h.assignable hsettled with
    | refl => rw [merge_self]
    | top => cases hwide
    | null t => cases hwide
    | object a b hab => cases hwide

end Absorbed

/-- A merge has absorbed both values. -/
theorem absorbed_merge (hlaw : Oracle.Lawful oracle) (v w : VType) :
    v.Absorbed oracle (v.merge oracle w) ∧ w.Absorbed oracle (v.merge oracle w) := by
  have htop : ∀ x : VType, x.Absorbed oracle .top := fun x => .below x _ (.top x)
  by_cases heq : v = w
  · rw [heq, merge_self]
    exact ⟨.refl w, .refl w⟩
  · -- the rules of merging one by one; all but two of them lead to `top` or to something above
    unfold VType.merge meet
    split
    · exact ⟨htop _, htop _⟩
    · exact ⟨htop _, htop _⟩
    · rw [if_neg heq]
      split
      · exact ⟨.below _ _ (.null _), .refl _⟩
      · exact ⟨.refl _, .below _ _ (.null _)⟩
      · -- the allocation on the left, an object on the right
        split
        · exact ⟨.refl _, .object _ _⟩
        · exact ⟨htop _, htop _⟩
      · split
        · exact ⟨.object _ _, .refl _⟩
        · exact ⟨htop _, htop _⟩
      · exact ⟨.below _ _ (.object _ _ (hlaw.left _ _)), .below _ _ (.object _ _ (hlaw.right _ _))⟩
      · exact ⟨htop _, htop _⟩

end VType

/-! ## Frames

Frames are compared place by place, as for assignability. That the merged frame is left alone by
another merge is a matter of each allocation in it. -/

namespace Frame

variable {oracle : Oracle} {f g m : Frame}

/-- Every value of `m` has absorbed the one at the same place of `f`. -/
structure Absorbed (oracle : Oracle) (f m : Frame) : Prop where
  stack : List.Forall₂ (fun v w => width v = width w ∧ v.Absorbed oracle w) f.stack m.stack
  locals : ∀ n w, UsableAt m.locals.toList n w →
    ∃ v, UsableAt f.locals.toList n v ∧ v.Absorbed oracle w

/-- Wherever `m` has an allocation, `f` has it too, or an object of its class. -/
structure Upholds (f m : Frame) : Prop where
  stack : List.Forall₂ VType.Upholds f.stack m.stack
  locals : ∀ n a, UsableAt m.locals.toList n (.uninitialized a) →
    ∃ v, UsableAt f.locals.toList n v ∧ v.Upholds (.uninitialized a)

theorem Assignable.absorbed (h : f.Assignable oracle g) : f.Absorbed oracle g where
  stack := h.stack.imp fun v w hvw => ⟨hvw.1, .below v w hvw.2⟩
  locals := fun n w hw => by
    obtain ⟨v, hv, hvw⟩ := h.locals n w hw
    exact ⟨v, hv, .below v w hvw⟩

/-- A merge has absorbed both frames. -/
theorem absorbed_of_merge (hlaw : Oracle.Lawful oracle) (hmerge : f.merge oracle g = .ok m) :
    f.Absorbed oracle m ∧ g.Absorbed oracle m := by
  obtain ⟨hfits, rfl⟩ := merge_eq_ok_iff.mp hmerge
  -- the stacks go value by value, since all of their widths fit
  have hstacks : ∀ {a b : List VType}, List.Forall₂ (VType.Fits oracle) a b →
      List.Forall₂ (fun v w => width v = width w ∧ v.Absorbed oracle w) a
          (List.zipWith (VType.merge oracle) a b)
        ∧ List.Forall₂ (fun v w => width v = width w ∧ v.Absorbed oracle w) b
          (List.zipWith (VType.merge oracle) a b) := by
    intro a b hab
    induction hab with
    | nil => exact ⟨.nil, .nil⟩
    | @cons v w a b hvw _ ih =>
      obtain ⟨hv, hw⟩ := VType.absorbed_merge hlaw v w
      exact ⟨.cons ⟨hvw.2.symm, hv⟩ ih.1, .cons ⟨hvw.1.symm.trans hvw.2.symm, hw⟩ ih.2⟩
  have hlocals : ∀ n x, UsableAt (WordSeq.ofList (mergeLocals oracle f.locals.toList
      g.locals.toList)).toList n x →
        (∃ v, UsableAt f.locals.toList n v ∧ v.Absorbed oracle x)
          ∧ ∃ w, UsableAt g.locals.toList n w ∧ w.Absorbed oracle x := by
    intro n x hx
    rw [WordSeq.toList_ofList, usableAt_mergeLocals_iff] at hx
    obtain ⟨v, w, hv, hw, _, rfl, hne⟩ := hx
    obtain ⟨hvx, hwx⟩ := VType.absorbed_merge hlaw v w
    exact ⟨⟨v, ⟨hv, hvx.ne_top hne⟩, hvx⟩, ⟨w, ⟨hw, hwx.ne_top hne⟩, hwx⟩⟩
  obtain ⟨hleft, hright⟩ := hstacks hfits
  exact ⟨⟨hleft, fun n x hx => (hlocals n x hx).1⟩, ⟨hright, fun n x hx => (hlocals n x hx).2⟩⟩

namespace Absorbed

/-- A frame has absorbed what a frame that it has absorbed had absorbed before. -/
theorem trans (hlaw : Oracle.Lawful oracle) (hfg : f.Absorbed oracle g)
    (hgm : g.Absorbed oracle m) : f.Absorbed oracle m where
  stack := stacks_trans
    (fun _ _ _ huv hvw => ⟨huv.1.trans hvw.1, huv.2.trans hlaw hvw.2⟩) hfg.stack hgm.stack
  locals := fun n w hw => by
    -- a usable word of the last frame was usable all along
    obtain ⟨v, hv, hvw⟩ := hgm.locals n w hw
    obtain ⟨u, hu, huv⟩ := hfg.locals n v hv
    exact ⟨u, hu, huv.trans hlaw hvw⟩

/-- Merging a frame into one that has absorbed it leaves the stack alone exactly if it upholds
it. -/
theorem zipWith_merge_eq_iff (hlaw : Oracle.Lawful oracle) (hanti : Oracle.Antisymm oracle)
    {a b : List VType}
    (h : List.Forall₂ (fun v w => width v = width w ∧ v.Absorbed oracle w) a b) :
    List.zipWith (VType.merge oracle) b a = b ↔ List.Forall₂ VType.Upholds a b := by
  induction h with
  | nil => simp
  | cons hvw _ ih =>
    rw [List.zipWith_cons_cons, List.cons.injEq, List.forall₂_cons,
      hvw.2.merge_eq_iff hlaw hanti, ih]

/-- Merging a frame into one that has absorbed it leaves the usable locals alone exactly if it
upholds the allocations among them. -/
theorem usableAt_merge_iff (hlaw : Oracle.Lawful oracle) (hanti : Oracle.Antisymm oracle)
    (h : f.Absorbed oracle m) :
    (∀ n x, UsableAt (mergeLocals oracle m.locals.toList f.locals.toList) n x
        ↔ UsableAt m.locals.toList n x)
      ↔ ∀ n a, UsableAt m.locals.toList n (.uninitialized a) →
          ∃ v, UsableAt f.locals.toList n v ∧ v.Upholds (.uninitialized a) := by
  constructor
  · intro hsame n a ha
    obtain ⟨v, hv, hva⟩ := h.locals n _ ha
    obtain ⟨w, v', hw, hv', _, hmerge, _⟩ := usableAt_mergeLocals_iff.mp ((hsame n _).mpr ha)
    -- the values that merge are the ones that stand there
    cases hw.symm.trans ha.1
    cases hv'.symm.trans hv.1
    exact ⟨v, hv, (hva.merge_eq_iff hlaw hanti).mp hmerge⟩
  · intro hupholds n x
    have hkept : ∀ w v, UsableAt m.locals.toList n w → UsableAt f.locals.toList n v →
        v.Absorbed oracle w → w.merge oracle v = w := by
      intro w v hw hv hvw
      refine (hvw.merge_eq_iff hlaw hanti).mpr fun a ha => ?_
      subst ha
      obtain ⟨v', hv', hup⟩ := hupholds n a hw
      cases hv'.1.symm.trans hv.1
      exact hup a rfl
    rw [usableAt_mergeLocals_iff]
    constructor
    · rintro ⟨w, v, hw, hv, _, hmerge, hne⟩
      have hwne : w ≠ .top := (VType.absorbed_merge hlaw w v).1.ne_top (hmerge ▸ hne)
      obtain ⟨v', hv', hvw⟩ := h.locals n w ⟨hw, hwne⟩
      cases hv'.1.symm.trans hv
      rw [← hmerge, hkept w v ⟨hw, hwne⟩ hv' hvw]
      exact ⟨hw, hwne⟩
    · intro hx
      obtain ⟨v, hv, hvx⟩ := h.locals n x hx
      exact ⟨x, v, hx.1, hv.1, (hvx.width_eq hx.2).symm, hkept x v hx hv hvx, hx.2⟩

/-- A frame can be merged into one that has absorbed it, and the snapshot stays exactly if the frame
upholds every allocation there. -/
theorem exists_merge (hlaw : Oracle.Lawful oracle) (hanti : Oracle.Antisymm oracle)
    (h : f.Absorbed oracle m) :
    ∃ k, m.merge oracle f = .ok k ∧ (k.snapshot = m.snapshot ↔ f.Upholds m) := by
  have hfits : List.Forall₂ (VType.Fits oracle) m.stack f.stack :=
    (h.stack.imp fun v w hvw => hvw.2.fits hvw.1).flip
  refine ⟨_, merge_eq_ok_iff.mpr ⟨hfits, rfl⟩, ?_⟩
  rw [snapshot_eq_iff, zipWith_merge_eq_iff hlaw hanti h.stack, WordSeq.toList_ofList,
    h.usableAt_merge_iff hlaw hanti]
  exact ⟨fun ⟨hstack, hlocals⟩ => ⟨hstack, hlocals⟩, fun hup => ⟨hup.stack, hup.locals⟩⟩

end Absorbed

end Frame

/-! ## Join points

Whatever arrives, the merged frame goes on having absorbed what was seen before: a new arrival is
absorbed by the merge, and so is the frame that was there. -/

/-- The merged frame has absorbed whatever has been seen. -/
def JoinPoint.Absorbs (oracle : Oracle) (j : JoinPoint) : Prop :=
  ∀ f : Frame, f.snapshot ∈ j.seen → ∃ merged, j.merged = some merged ∧ f.Absorbed oracle merged

/-- A join point that has absorbed all it has seen still has after an arrival. -/
theorem JoinPoint.Absorbs.receives {oracle : Oracle} {j k : JoinPoint} {f : Frame}
    (hlaw : Oracle.Lawful oracle) (hj : j.Absorbs oracle) (hk : j.Receives oracle f k) :
    k.Absorbs oracle := by
  refine hk.relates hj (fun _ heq => (Frame.Assignable.of_snapshot_eq heq).absorbed)
    fun current m _ hmerge f' hf' => ?_
  obtain ⟨hleft, hright⟩ := Frame.absorbed_of_merge hlaw hmerge
  rcases hf' with habsorbed | habsorbed
  · exact habsorbed.trans hlaw hleft
  · exact habsorbed.trans hlaw hright

namespace JoinGraph

/-- This is an invariant of a graph that does not depend on what frames arrive. -/
theorem carries_absorbs {oracle : Oracle} (hlaw : Oracle.Lawful oracle) (graph : JoinGraph) :
    graph.Carries oracle (fun _ => True) (fun _ _ => True) (fun _ j => j.Absorbs oracle) where
  caught := fun _ _ _ _ _ => trivial
  receive := fun _ _ _ _ hj _ hk => hj.receives hlaw hk
  pending := fun _ _ _ hj => hj

/-- A frame that was marked at a label can be merged into the merged frame there once more, whatever
has arrived since. That changes the snapshot exactly if there is an allocation by now that the frame
neither has at the same place nor has an object of the class of. -/
theorem marked_frames_merge_again {h : Hierarchy} (hwf : h.WellFormed) {code : Code}
    {ranges : List ProtectedRange} {graph g : JoinGraph} {calls : List Call} {l : Label} {f : Frame}
    (hbuild : build h.common code ranges = .ok graph) (hserve : serve h.common calls graph = .ok g)
    (hmark : .mark l f ∈ calls) :
    ∃ merged m, g.frameAt? l = some merged ∧ merged.merge h.common f = .ok m
      ∧ (m.snapshot = merged.snapshot ↔ f.Upholds merged) := by
  -- a graph that was just built has seen nothing
  have hfresh : graph.All fun _ j => j.Absorbs h.common := (built_of_build hbuild).2.all_seen _
  have hall := (carries_absorbs hwf.lawful graph).serve (.refl graph) hfresh (fun _ _ => trivial)
    (fun _ _ _ => trivial) hserve
  obtain ⟨k, hk, hmem⟩ := seen_of_serve hserve hmark
  obtain ⟨merged, hmerged, habsorbed⟩ := hall l k hk f hmem
  obtain ⟨m, hm, hiff⟩ := habsorbed.exists_merge hwf.lawful hwf.antisymm
  exact ⟨merged, m, (frameAt?_of_join? hk).trans hmerged, hm, hiff⟩

end JoinGraph

/-! ## A string that an allocation overtakes

A null arrives first, then a string, then an allocation of a string. The string gives way to the
allocation, and the null is left behind. -/

namespace Overtaken

def null : Frame := .ofValues [.null] []

def string : Frame := .ofValues [.object (.object .string)] []

def allocated : Frame := .ofValues [.allocated .string ⟨7⟩] []

/-- Each of the frames arrives at label 2 of a body in turn. -/
def calls : List JoinGraph.Call := [.mark ⟨2⟩ null, .mark ⟨2⟩ string, .mark ⟨2⟩ allocated]

end Overtaken

namespace JoinGraph

/-- The string was marked before the allocation came and can still be merged. -/
theorem marked_frames_merge_again_overtaken :
    ∃ graph g, build Hierarchy.javaLang.common Rivals.code Rivals.ranges = .ok graph
      ∧ serve Hierarchy.javaLang.common Overtaken.calls graph = .ok g
      ∧ .mark ⟨2⟩ Overtaken.string ∈ Overtaken.calls
      ∧ ∃ merged m, g.frameAt? ⟨2⟩ = some merged
        ∧ merged.merge Hierarchy.javaLang.common Overtaken.string = .ok m
        ∧ (m.snapshot = merged.snapshot ↔ Overtaken.string.Upholds merged) :=
  ⟨_, _, rfl, rfl, by decide, @marked_frames_merge_again _ Hierarchy.wellFormed_javaLang Rivals.code
    Rivals.ranges _ _ Overtaken.calls ⟨2⟩ Overtaken.string rfl rfl (by decide)⟩

/-- Null was merged into a string, which gave way to an allocation. Merged into that, null leaves
nothing usable. -/
theorem marked_null_changes_allocation :
    ∃ graph g merged m, build Hierarchy.javaLang.common Rivals.code Rivals.ranges = .ok graph
      ∧ serve Hierarchy.javaLang.common Overtaken.calls graph = .ok g
      ∧ .mark ⟨2⟩ Overtaken.null ∈ Overtaken.calls
      ∧ g.frameAt? ⟨2⟩ = some merged
      ∧ merged.merge Hierarchy.javaLang.common Overtaken.null = .ok m
      ∧ merged.snapshot = Overtaken.allocated.snapshot ∧ m.snapshot = Frame.empty.snapshot
      ∧ m.snapshot ≠ merged.snapshot :=
  ⟨_, _, _, _, rfl, rfl, by decide, rfl, rfl, by decide, by decide, by decide⟩

end JoinGraph

end JvmFrames
