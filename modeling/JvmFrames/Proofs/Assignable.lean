import JvmFrames.Frame.Action
import JvmFrames.Proofs.JoinGraph.Growth
import JvmFrames.Proofs.Merge

/-!
# Assignability

A value may be assigned to another if it says at least as much: both are the same, null goes for any
object, an object for one it has in common with, and anything for `top`. Frames are compared value
by value on the stack, where widths have to agree, and word by word in the locals, where only usable
values of the larger frame count.

If the oracle gives least upper bounds (`Oracle.Lawful`), a merge is below every frame that both
frames may be assigned to, and exists whenever there is such a frame
(`Frame.Assignable.exists_merge`). It is above both of them as long as no allocation is involved
(`Frame.assignable_of_merge`): an object and an allocation of its class merge to the allocation.
-/

namespace JvmFrames

/-- The oracle answers with least upper bounds in the order "`b` is what `a` and `b` have in
common", and that order respects arrays. -/
structure Oracle.Lawful (oracle : Oracle) : Prop where
  self : ∀ a, oracle a a = a
  trans : ∀ a b c, oracle a b = b → oracle b c = c → oracle a c = c
  left : ∀ a b, oracle a (oracle a b) = oracle a b
  right : ∀ a b, oracle b (oracle a b) = oracle a b
  least : ∀ a b c, oracle a c = c → oracle b c = c → oracle (oracle a b) c = c
  array : ∀ a b, oracle a b = b → b.isArray = true → a.isArray = true
  element : ∀ a b e, oracle a b = b → b.referenceElement? = some e →
    ∃ d, a.referenceElement? = some d ∧ oracle d e = e
  primitive : ∀ a n t, oracle a (.primitiveArray n t) = .primitiveArray n t →
    a = .primitiveArray n t

/-! ## Values

Assignability of values is a small order: four rules, of which only the one for objects asks the
oracle. -/

namespace VType

inductive Assignable (oracle : Oracle) : VType → VType → Prop where
  | refl (v : VType) : Assignable oracle v v
  | top (v : VType) : Assignable oracle v .top
  | null (t : RefType) : Assignable oracle .null (.object t)
  | object (a b : RefType) (h : oracle a b = b) : Assignable oracle (.object a) (.object b)

/-- The type of an object. -/
def object? : VType → Option RefType
  | .object t => some t
  | _ => none

theorem eq_object_of_object? {v : VType} {t : RefType} (h : v.object? = some t) : v = .object t := by
  cases v with
  | object _ => cases h; rfl
  | _ => cases h

/-- Not a value that `new` has made and no constructor has run on. -/
def Settled (v : VType) : Prop := ∀ u, v ≠ .uninitialized u

variable {oracle : Oracle} {u v w : VType}

namespace Assignable

theorem eq_top (h : Assignable oracle .top w) : w = .top := by
  cases h with
  | refl => rfl
  | top => rfl

/-- Assignability is transitive, since what objects have in common is. -/
theorem trans (hlaw : Oracle.Lawful oracle) (huv : u.Assignable oracle v)
    (hvw : v.Assignable oracle w) : u.Assignable oracle w := by
  cases hvw with
  | refl => exact huv
  | top => exact .top u
  | null t =>
    cases huv with
    | refl => exact .null t
  | object a b hab =>
    cases huv with
    | refl => exact .object a b hab
    | null _ => exact .null b
    | object c _ hca => exact .object c b (hlaw.trans c a b hca hab)

/-- A value keeps its width below anything usable. -/
theorem width_eq (h : v.Assignable oracle w) (hw : w ≠ .top) : width v = width w := by
  cases h with
  | refl => rfl
  | top => exact absurd rfl hw
  | null _ => rfl
  | object _ _ _ => rfl

theorem ne_top (h : v.Assignable oracle w) (hw : w ≠ .top) : v ≠ .top := by
  rintro rfl
  exact hw h.eq_top

/-- Values that are alike in that neither is an object or null stay apart. -/
theorem eq_of_not_object (h : v.Assignable oracle w) (hw : w ≠ .top)
    (hobject : ∀ t, w ≠ .object t) : v = w := by
  cases h with
  | refl => rfl
  | top => exact absurd rfl hw
  | null t => exact absurd rfl (hobject t)
  | object _ b _ => exact absurd rfl (hobject b)

/-- A merge is below everything that both values are below. -/
theorem merge (hlaw : Oracle.Lawful oracle) (huw : u.Assignable oracle w)
    (hvw : v.Assignable oracle w) : (u.merge oracle v).Assignable oracle w := by
  -- by the rule for `u` and, under it, the rule for `v`; where both are objects, `w` is above what
  -- they have in common since that is least
  cases huw with
  | top => exact .top _
  | refl =>
    cases hvw with
    | refl => rw [merge_self]; exact .refl _
    | top => exact .top _
    | null t => rw [merge_object_null]; exact .refl _
    | object a b hab =>
      rw [merge_object_object]
      refine .object _ _ ?_
      split
      · exact hlaw.self b
      · exact hlaw.least b a b (hlaw.self b) hab
  | null t =>
    cases hvw with
    | refl => rw [merge_null_object]; exact .refl _
    | null _ => rw [merge_self]; exact .null t
    | object a _ hab => rw [merge_null_object]; exact .object a t hab
  | object a b hab =>
    cases hvw with
    | refl =>
      rw [merge_object_object]
      refine .object _ _ ?_
      split
      · exact hab
      · exact hlaw.least a b b hab (hlaw.self b)
    | null _ => rw [merge_object_null]; exact .object a b hab
    | object c _ hcb =>
      rw [merge_object_object]
      refine .object _ _ ?_
      split
      · exact hab
      · exact hlaw.least a c b hab hcb

end Assignable

/-- A merge is above both values, unless an allocation is among them. -/
theorem assignable_merge (hlaw : Oracle.Lawful oracle) (hv : v.Settled) (hw : w.Settled) :
    v.Assignable oracle (v.merge oracle w) ∧ w.Assignable oracle (v.merge oracle w) := by
  by_cases heq : v = w
  · rw [heq, merge_self]
    exact ⟨.refl w, .refl w⟩
  · unfold VType.merge meet
    split
    · exact ⟨.top _, .top _⟩
    · exact ⟨.top _, .top _⟩
    · rw [if_neg heq]
      split
      · exact ⟨.null _, .refl _⟩
      · exact ⟨.refl _, .null _⟩
      · -- an allocation would be the merge, and the object is not below it
        exact absurd rfl (hv _)
      · exact absurd rfl (hw _)
      · exact ⟨.object _ _ (hlaw.left _ _), .object _ _ (hlaw.right _ _)⟩
      · exact ⟨.top _, .top _⟩

/-- The four rules as one condition that can be computed. -/
theorem assignable_iff : v.Assignable oracle w ↔ v = w ∨ w = .top
    ∨ ∃ b ∈ w.object?, v = .null ∨ ∃ a ∈ v.object?, oracle a b = b := by
  constructor
  · intro h
    cases h with
    | refl => exact Or.inl rfl
    | top => exact Or.inr (Or.inl rfl)
    | null t => exact Or.inr (Or.inr ⟨t, rfl, Or.inl rfl⟩)
    | object a b hab => exact Or.inr (Or.inr ⟨b, rfl, Or.inr ⟨a, rfl, hab⟩⟩)
  · rintro (rfl | rfl | ⟨b, hb, rfl | ⟨a, ha, hab⟩⟩)
    · exact .refl v
    · exact .top v
    · rw [eq_object_of_object? hb]
      exact .null b
    · rw [eq_object_of_object? ha, eq_object_of_object? hb]
      exact .object a b hab

instance (oracle : Oracle) (v w : VType) : Decidable (v.Assignable oracle w) :=
  decidable_of_iff _ assignable_iff.symm

/-- A value may stand at the place of another on a stack. -/
def Replaces (oracle : Oracle) (v w : VType) : Prop :=
  width v = width w ∧ v.Assignable oracle w

instance (oracle : Oracle) (v w : VType) : Decidable (v.Replaces oracle w) :=
  inferInstanceAs (Decidable (width v = width w ∧ v.Assignable oracle w))

/-- Two values that may stand at the place of a third one merge on a stack, to one that may stand
there too. -/
theorem Replaces.merge (hlaw : Oracle.Lawful oracle) (huw : u.Replaces oracle w)
    (hvw : v.Replaces oracle w) :
    u.Fits oracle v ∧ (u.merge oracle v).Replaces oracle w := by
  have hbelow := huw.2.merge hlaw hvw.2
  -- a value keeps its width below anything usable, and `top` is above narrow values only
  have hwidth : width (u.merge oracle v) = width w := by
    by_cases hw : w = .top
    · have hu : width u = 1 := by rw [huw.1, hw]; rfl
      rw [width_merge_of_narrow hu, ← hu, huw.1]
    · exact hbelow.width_eq hw
  exact ⟨⟨huw.1.trans hvw.1.symm, hwidth.trans huw.1.symm⟩, hwidth, hbelow⟩

end VType

/-! ## Snapshots

A snapshot drops the `top`s at the end of the locals. What it keeps has all that is usable. -/

/-- What is dropped from the end of a list are `top`s, if only `top`s are dropped. -/
theorem exists_eq_dropWhile_append {p : VType → Bool} (hp : ∀ v, p v = true → v = .top)
    (values : List VType) :
    ∃ n, values = (values.reverse.dropWhile p).reverse ++ List.replicate n .top := by
  have hsplit : values.reverse.takeWhile p ++ values.reverse.dropWhile p = values.reverse :=
    List.takeWhile_append_dropWhile
  have htops : values.reverse.takeWhile p
      = List.replicate (values.reverse.takeWhile p).length .top := by
    refine List.eq_replicate_of_mem fun v hv => hp v ?_
    exact List.all_eq_true.mp List.all_takeWhile v hv
  refine ⟨(values.reverse.takeWhile p).length, ?_⟩
  calc values = values.reverse.reverse := (List.reverse_reverse values).symm
    _ = (values.reverse.dropWhile p).reverse ++ (values.reverse.takeWhile p).reverse := by
        rw [← List.reverse_append, hsplit]
    _ = _ := by rw [htops, List.reverse_replicate, List.length_replicate]

/-- A list of locals is what a snapshot keeps of it, with `top`s behind. -/
theorem exists_eq_trim_append (values : List VType) :
    ∃ n, values = Snapshot.trim values ++ List.replicate n .top := by
  refine exists_eq_dropWhile_append (fun v hv => ?_) values
  cases v <;> first | rfl | cases hv

/-- A list has the usable values that it has without the `top`s at its end. -/
theorem usableAt_trim_iff {values : List VType} {n : Nat} {v : VType} :
    UsableAt (Snapshot.trim values) n v ↔ UsableAt values n v := by
  obtain ⟨k, hk⟩ := exists_eq_trim_append values
  have happend : UsableAt (Snapshot.trim values ++ List.replicate k .top) n v
      ↔ UsableAt (Snapshot.trim values) n v := by
    rw [usableAt_append_iff]
    constructor
    · rintro (h | ⟨_, h⟩)
      · exact h
      · exact absurd h not_usableAt_replicate_top
    · exact Or.inl
  rw [← hk] at happend
  exact happend.symm

/-! ## Frames

On stacks the widths have to agree as well, since a wide value may not be taken for a narrow one
even if both are unusable. In the locals only the usable values of the larger frame count, so a
frame with fewer of them is larger. -/

namespace Frame

/-- Every value of `f` may be assigned to the one at the same place of `g`: value by value on the
stack, and in the locals wherever `g` has a usable value. -/
structure Assignable (oracle : Oracle) (f g : Frame) : Prop where
  stack : List.Forall₂ (VType.Replaces oracle) f.stack g.stack
  locals : ∀ n w, UsableAt g.locals.toList n w →
    ∃ v, UsableAt f.locals.toList n v ∧ v.Assignable oracle w

/-- All values of a frame have a property. -/
def Holds (P : VType → Prop) (f : Frame) : Prop :=
  (∀ v ∈ f.locals.toList, P v) ∧ ∀ v ∈ f.stack, P v

variable {oracle : Oracle} {f g h m : Frame}

/-- What is transitive for values is so for stacks, place by place. -/
theorem stacks_trans {R : VType → VType → Prop} {a b c : List VType}
    (htrans : ∀ u v w, R u v → R v w → R u w) (hab : List.Forall₂ R a b)
    (hbc : List.Forall₂ R b c) : List.Forall₂ R a c := by
  induction hab generalizing c with
  | nil => exact hbc
  | cons huv _ ih =>
    cases hbc with
    | cons hvw hrest => exact .cons (htrans _ _ _ huv hvw) (ih hrest)

theorem stackWords_eq_of_replaces {a b : List VType}
    (h : List.Forall₂ (VType.Replaces oracle) a b) : wordCount a = wordCount b := by
  induction h with
  | nil => rfl
  | cons hvw _ ih => rw [wordCount_cons, wordCount_cons, ih, hvw.1]

namespace Assignable

theorem refl (f : Frame) : f.Assignable oracle f where
  stack := List.forall₂_same.mpr fun v _ => ⟨rfl, .refl v⟩
  locals := fun _ w hw => ⟨w, hw, .refl w⟩

/-- Assignability of frames is transitive, place by place. -/
theorem trans (hlaw : Oracle.Lawful oracle) (hfg : f.Assignable oracle g)
    (hgh : g.Assignable oracle h) : f.Assignable oracle h where
  stack := stacks_trans
    (fun _ _ _ huv hvw => ⟨huv.1.trans hvw.1, huv.2.trans hlaw hvw.2⟩) hfg.stack hgh.stack
  locals := fun n w hw => by
    -- a usable word above is a usable word below, twice
    obtain ⟨v, hv, hvw⟩ := hgh.locals n w hw
    obtain ⟨u, hu, huv⟩ := hfg.locals n v hv
    exact ⟨u, hu, huv.trans hlaw hvw⟩

/-- A frame has as many words on its stack as any frame above it. -/
theorem stackWords_eq (hfg : f.Assignable oracle g) : f.stackWords = g.stackWords :=
  stackWords_eq_of_replaces hfg.stack

/-- Frames stay in order when an exception clears their stacks. -/
theorem caught (hfg : f.Assignable oracle g) (t : RefType) :
    (f.caught t).Assignable oracle (g.caught t) where
  stack := .cons ⟨rfl, .refl _⟩ .nil
  locals := hfg.locals

/-- Frames with one snapshot may stand for each other. -/
theorem of_snapshot_eq (heq : f.snapshot = g.snapshot) : f.Assignable oracle g := by
  have hlocals : Snapshot.trim f.locals.toList = Snapshot.trim g.locals.toList :=
    congrArg Snapshot.locals heq
  have hstack : f.stack = g.stack := List.reverse_inj.mp (congrArg Snapshot.stack heq)
  refine ⟨by rw [hstack]; exact (refl g).stack, fun n w hw => ⟨w, ?_, .refl w⟩⟩
  rw [← usableAt_trim_iff, hlocals, usableAt_trim_iff]
  exact hw

/-- Two frames that may be assigned to a third one merge, and their merge may be assigned to it. -/
theorem exists_merge (hlaw : Oracle.Lawful oracle) (hfh : f.Assignable oracle h)
    (hgh : g.Assignable oracle h) :
    ∃ m, f.merge oracle g = .ok m ∧ m.Assignable oracle h := by
  -- the stacks merge value by value, below the third one
  have hstacks : ∀ {a b c : List VType}, List.Forall₂ (VType.Replaces oracle) a c →
      List.Forall₂ (VType.Replaces oracle) b c →
        List.Forall₂ (VType.Fits oracle) a b
          ∧ List.Forall₂ (VType.Replaces oracle) (List.zipWith (VType.merge oracle) a b) c := by
    intro a b c hac
    induction hac generalizing b with
    | nil =>
      intro hbc
      cases hbc
      exact ⟨.nil, .nil⟩
    | cons huw _ ih =>
      intro hbc
      cases hbc with
      | cons hvw hrest =>
        obtain ⟨hfits, hreplaces⟩ := huw.merge hlaw hvw
        obtain ⟨hfitsAll, hreplacesAll⟩ := ih hrest
        exact ⟨.cons hfits hfitsAll, .cons hreplaces hreplacesAll⟩
  obtain ⟨hfits, hreplaces⟩ := hstacks hfh.stack hgh.stack
  refine ⟨_, merge_eq_ok_iff.mpr ⟨hfits, rfl⟩, hreplaces, fun n w hw => ?_⟩
  rw [WordSeq.toList_ofList]
  -- where the third frame has a usable value, so have both, and they merge to a usable one
  obtain ⟨u, hu, huw⟩ := hfh.locals n w hw
  obtain ⟨v, hv, hvw⟩ := hgh.locals n w hw
  have hbelow := huw.merge hlaw hvw
  have hwidth : width u = width v := (huw.width_eq hw.2).trans (hvw.width_eq hw.2).symm
  refine ⟨u.merge oracle v, ?_, hbelow⟩
  exact usableAt_mergeLocals_iff.mpr ⟨u, v, hu.1, hv.1, hwidth, rfl, hbelow.ne_top hw.2⟩

end Assignable

/-- A merge of two frames without allocations is above both. -/
theorem assignable_of_merge (hlaw : Oracle.Lawful oracle) (hf : f.Holds VType.Settled)
    (hg : g.Holds VType.Settled) (hmerge : f.merge oracle g = .ok m) :
    f.Assignable oracle m ∧ g.Assignable oracle m := by
  obtain ⟨hfits, rfl⟩ := merge_eq_ok_iff.mp hmerge
  have hstacks : ∀ {a b : List VType}, (∀ v ∈ a, v.Settled) → (∀ v ∈ b, v.Settled) →
      List.Forall₂ (VType.Fits oracle) a b →
        List.Forall₂ (VType.Replaces oracle) a (List.zipWith (VType.merge oracle) a b)
          ∧ List.Forall₂ (VType.Replaces oracle) b (List.zipWith (VType.merge oracle) a b) := by
    intro a b ha hb hab
    induction hab with
    | nil => exact ⟨.nil, .nil⟩
    | @cons v w a b hvw _ ih =>
      obtain ⟨hv, hw⟩ := VType.assignable_merge hlaw (ha v (List.mem_cons_self ..))
        (hb w (List.mem_cons_self ..))
      obtain ⟨hleft, hright⟩ := ih (fun v hv => ha v (List.mem_cons_of_mem _ hv))
        (fun w hw => hb w (List.mem_cons_of_mem _ hw))
      exact ⟨.cons ⟨hvw.2.symm, hv⟩ hleft, .cons ⟨hvw.1.symm.trans hvw.2.symm, hw⟩ hright⟩
  obtain ⟨hleft, hright⟩ := hstacks hf.2 hg.2 hfits
  -- a usable local of the merge comes from usable locals of both
  have hlocals : ∀ n x, UsableAt (WordSeq.ofList (mergeLocals oracle f.locals.toList
      g.locals.toList)).toList n x →
        (∃ v, UsableAt f.locals.toList n v ∧ v.Assignable oracle x)
          ∧ ∃ w, UsableAt g.locals.toList n w ∧ w.Assignable oracle x := by
    intro n x hx
    rw [WordSeq.toList_ofList, usableAt_mergeLocals_iff] at hx
    obtain ⟨v, w, hv, hw, _, rfl, hne⟩ := hx
    obtain ⟨hvx, hwx⟩ := VType.assignable_merge hlaw (hf.1 v (mem_of_valueAt? hv))
      (hg.1 w (mem_of_valueAt? hw))
    exact ⟨⟨v, ⟨hv, hvx.ne_top hne⟩, hvx⟩, ⟨w, ⟨hw, hwx.ne_top hne⟩, hwx⟩⟩
  exact ⟨⟨hleft, fun n x hx => (hlocals n x hx).1⟩, ⟨hright, fun n x hx => (hlocals n x hx).2⟩⟩

/-- Whether a frame may be assigned to another can be told from the words of the latter. -/
theorem assignable_iff_forall_lt : f.Assignable oracle g ↔
    List.Forall₂ (VType.Replaces oracle) f.stack g.stack
      ∧ ∀ n < wordCount g.locals.toList, ∀ w ∈ valueAt? g.locals.toList n, w ≠ .top →
          ∃ v ∈ valueAt? f.locals.toList n, v ≠ .top ∧ v.Assignable oracle w := by
  constructor
  · rintro ⟨hstack, hlocals⟩
    refine ⟨hstack, fun n _ w hw hne => ?_⟩
    obtain ⟨v, hv, hvw⟩ := hlocals n w ⟨hw, hne⟩
    exact ⟨v, hv.1, hv.2, hvw⟩
  · rintro ⟨hstack, hlocals⟩
    refine ⟨hstack, fun n w hw => ?_⟩
    -- nothing starts beyond the last word
    have hpos := width_pos w
    have hend := add_width_le_of_valueAt? hw.1
    obtain ⟨v, hv, hne, hvw⟩ := hlocals n (by omega) w hw.1 hw.2
    exact ⟨v, ⟨hv, hne⟩, hvw⟩

instance (oracle : Oracle) (f g : Frame) : Decidable (f.Assignable oracle g) :=
  decidable_of_iff _ assignable_iff_forall_lt.symm

end Frame

/-- Among some frames there is one for a label, and the given one may be assigned to it. -/
def Lands (oracle : Oracle) (frames : Label → Option Frame) (l : Label) (f : Frame) : Prop :=
  ∃ g ∈ frames l, f.Assignable oracle g

instance (oracle : Oracle) (frames : Label → Option Frame) (l : Label) (f : Frame) :
    Decidable (Lands oracle frames l f) :=
  inferInstanceAs (Decidable (∃ g ∈ frames l, f.Assignable oracle g))

/-- What is below a frame that lands at a label lands there too. -/
theorem Lands.of_assignable {oracle : Oracle} {frames : Label → Option Frame} {l : Label}
    {f g : Frame} (hlaw : Oracle.Lawful oracle) (hfg : f.Assignable oracle g)
    (h : Lands oracle frames l g) : Lands oracle frames l f := by
  obtain ⟨k, hk, hgk⟩ := h
  exact ⟨k, hk, hfg.trans hlaw hgk⟩

end JvmFrames
