import JvmFrames.Proofs.Compression
import JvmFrames.Proofs.Effect
import JvmFrames.Proofs.Likeness
import JvmFrames.Proofs.Merge

/-!
# Renaming allocation sites

All that matters about the labels of allocations is which of them are equal. So a one-to-one
renaming of them commutes with whatever is done to frames: executing instructions
(`Frame.agree_execute`), merging (`Frame.agree_merge`), taking snapshots (`Frame.snapshot_rename`)
and compressing these (`Snapshot.compress_map`). For instructions a frame and its renaming are one
of the likenesses that actions keep (`Likeness.renaming`).
-/

namespace JvmFrames

/-- A one-to-one renaming of labels. -/
structure Renaming where
  label : Label → Label
  injective : ∀ a b, label a = label b → a = b

namespace VType

variable {r : Renaming} {v w : VType}

/-- With the site of an allocation renamed. -/
def rename (r : Renaming) (v : VType) : VType :=
  v.map id fun u => ⟨u.className, r.label u.site⟩

/-- Different values are renamed to different ones. -/
theorem rename_injective (r : Renaming) : ∀ v w : VType, v.rename r = w.rename r → v = w := by
  intro v w h
  cases v with
  | uninitialized u =>
    cases w with
    | uninitialized u' =>
      obtain ⟨c, s⟩ := u
      obtain ⟨c', s'⟩ := u'
      -- only allocations are changed, and there the renaming of labels is one-to-one
      simp only [rename, VerificationType.map, VerificationType.uninitialized.injEq,
        Allocation.mk.injEq] at h
      rw [h.1, r.injective s s' h.2]
    | _ => cases h
  | object t =>
    cases w with
    | object t' => exact h
    | _ => cases h
  | _ =>
    cases w with
    | uninitialized u' => cases h
    | _ => exact h

@[simp] theorem rename_inj : v.rename r = w.rename r ↔ v = w :=
  ⟨rename_injective r v w, fun h => by rw [h]⟩

/-- A renamed value is as wide as before. -/
@[simp] theorem width_rename (r : Renaming) (v : VType) : width (v.rename r) = width v := by
  cases v <;> rfl

@[simp] theorem isReference_rename : (v.rename r).isReference = v.isReference := by
  cases v <;> rfl

@[simp] theorem isInitialized_rename : (v.rename r).isInitialized = v.isInitialized := by
  cases v <;> rfl

@[simp] theorem isUninitialized_rename : (v.rename r).isUninitialized = v.isUninitialized := by
  cases v <;> rfl

@[simp] theorem rename_top : rename r .top = .top := rfl

@[simp] theorem rename_integer : rename r .integer = .integer := rfl

@[simp] theorem rename_float : rename r .float = .float := rfl

@[simp] theorem rename_long : rename r .long = .long := rfl

@[simp] theorem rename_double : rename r .double = .double := rfl

@[simp] theorem rename_object (t : RefType) : rename r (.object t) = .object t := rfl

/-- Only `top` is renamed to `top`. -/
theorem rename_eq_top_iff : v.rename r = .top ↔ v = .top := rename_inj (w := .top)

/-- A value may be renamed before or after its constructor has run. -/
theorem rename_constructed (this : ClassName) :
    (v.constructed this).rename r = (v.rename r).constructed this := by
  cases v <;> rfl

/-- An element may be taken before or after its array is renamed. -/
theorem rename_elementOf : v.elementOf.rename r = (v.rename r).elementOf := by
  cases v with
  | object t =>
    show (VType.elementOf (.object t)).rename r = VType.elementOf (.object t)
    unfold elementOf
    dsimp only
    split <;> rfl
  | _ => rfl

/-- Lists are renamed value by value. -/
theorem forall₂_rename_iff {values values' : List VType} :
    List.Forall₂ (fun v w => w = v.rename r) values values' ↔ values' = values.map (rename r) := by
  constructor
  · intro h
    induction h with
    | nil => rfl
    | cons hvalue _ ih => rw [List.map_cons, hvalue, ih]
  · rintro rfl
    rw [List.forall₂_map_right_iff]
    exact List.forall₂_same.mpr fun _ _ => rfl

/-- Values are merged and renamed in either order. -/
theorem rename_merge (oracle : Oracle) :
    (v.merge oracle w).rename r = (v.rename r).merge oracle (w.rename r) := by
  by_cases h : v = w
  · rw [h, merge_self, merge_self]
  · -- the rules ask whether two allocations are the same one, and renaming does not change that
    have h' : ¬ v.rename r = w.rename r := fun heq => h (rename_inj.mp heq)
    cases v with
    | uninitialized u =>
      cases w with
      | object t =>
        cases t with
        | object c =>
          show _ = merge oracle (.uninitialized _) (.object (.object c))
          rw [merge_uninitialized_object, merge_uninitialized_object]
          split <;> rfl
        | _ => rfl
      | uninitialized u' =>
        simp only [rename, VerificationType.map] at h'
        simp [merge, meet, h, h', rename, VerificationType.map, Meeting.resolve]
      | _ => rfl
    | object t =>
      cases w with
      | uninitialized u =>
        cases t with
        | object c =>
          show _ = merge oracle (.object (.object c)) (.uninitialized _)
          rw [merge_object_uninitialized, merge_object_uninitialized]
          split <;> rfl
        | _ => rfl
      | object t' =>
        show (merge oracle (.object t) (.object t')).rename r
          = merge oracle (.object t) (.object t')
        rw [merge_object_object]
        rfl
      | _ => rfl
    | _ =>
      cases w with
      | _ => rfl

end VType

/-! ## Actions

A frame and its renaming are treated alike by every action, as far as its checks, the locals and
constructors treat values alike. -/

/-- With the value that is asked for renamed. -/
def Check.rename (r : Renaming) : Check → Check
  | .exactly v => .exactly (v.rename r)
  | check => check

/-- A renamed value passes the renamed check if the value passes the check. -/
theorem Check.error?_rename {r : Renaming} {check : Check} {v : VType} :
    (check.rename r).error? (v.rename r) = none ↔ check.error? v = none := by
  cases check with
  | exactly w => rw [rename, exactly_error?, exactly_error?, VType.rename_inj]
  | reference =>
    show Check.reference.error? _ = none ↔ _
    rw [reference_error?, reference_error?, VType.isReference_rename]
  | initialized =>
    show Check.initialized.error? _ = none ↔ _
    rw [initialized_error?, initialized_error?, VType.isInitialized_rename]
  | uninitialized =>
    show Check.uninitialized.error? _ = none ↔ _
    rw [uninitialized_error?, uninitialized_error?, VType.isUninitialized_rename]
  | narrow =>
    show Check.narrow.error? _ = none ↔ _
    rw [narrow_error?, narrow_error?, VType.width_rename]
  | _ =>
    -- no allocation passes for an array or a receiver, and nothing else is renamed
    cases v with
    | uninitialized u => exact ⟨nofun, nofun⟩
    | _ => rfl

/-- A check and its renaming ask for corresponding values. -/
theorem Check.like_rename (r : Renaming) (check : Check) :
    check.Like (fun v w => w = v.rename r) (check.rename r) := by
  cases check with
  | exactly v => exact .exactly v _ rfl
  | _ => exact .same _ nofun

/-- Checks that ask for corresponding values are renamings of each other. -/
theorem Check.Like.eq_rename {r : Renaming} {check check' : Check}
    (h : check.Like (fun v w => w = v.rename r) check') : check' = check.rename r := by
  cases h with
  | exactly v w h => rw [h, Check.rename]
  | same _ hplain =>
    cases check with
    | exactly v => exact absurd rfl (hplain v)
    | _ => rfl

namespace Frame

variable {r : Renaming} {f : Frame}

/-- With the sites of all allocations renamed. -/
def rename (r : Renaming) (f : Frame) : Frame := f.map (VType.rename r)

@[simp] theorem stack_rename (r : Renaming) (f : Frame) :
    (f.rename r).stack = f.stack.map (VType.rename r) := rfl

@[simp] theorem toList_locals_rename (r : Renaming) (f : Frame) :
    (f.rename r).locals.toList = f.locals.toList.map (VType.rename r) :=
  WordSeq.toList_ofList _

/-- Frames are told by the values of their locals and stacks. -/
theorem ext_toList {f g : Frame} (hlocals : f.locals.toList = g.locals.toList)
    (hstack : f.stack = g.stack) : f = g := by
  obtain ⟨locals, stack⟩ := f
  obtain ⟨locals', stack'⟩ := g
  cases hstack
  exact congrArg (Frame.mk · stack) (WordSeq.ext_toList hlocals)

/-- Different frames are renamed to different ones. -/
theorem rename_injective (r : Renaming) : ∀ f g : Frame, f.rename r = g.rename r → f = g := by
  intro f g h
  have hmap : ∀ a b : List VType, a.map (VType.rename r) = b.map (VType.rename r) → a = b :=
    fun a b => (List.map_inj_right (VType.rename_injective r)).mp
  refine ext_toList (hmap _ _ ?_) (hmap _ _ ?_)
  · rw [← toList_locals_rename, ← toList_locals_rename, h]
  · rw [← stack_rename, ← stack_rename, h]

@[simp] theorem stackWords_rename : (f.rename r).stackWords = f.stackWords :=
  wordCount_map (VType.width_rename r) f.stack

@[simp] theorem words_locals_rename : (f.rename r).locals.words = f.locals.words := by
  rw [WordSeq.words_eq_wordCount, WordSeq.words_eq_wordCount, toList_locals_rename,
    wordCount_map (VType.width_rename r)]

/-! ### The locals

Renaming keeps widths, so every value of a renamed frame starts at the word it did before. -/

/-- A renamed frame has the renamed value in each slot. -/
theorem agree_load (r : Renaming) (f : Frame) (slot : UInt16) :
    Agree (fun v w => w = v.rename r) (f.load slot) ((f.rename r).load slot) := by
  have hvalue : valueAt? (f.rename r).locals.toList slot.toNat
      = (valueAt? f.locals.toList slot.toNat).map (VType.rename r) := by
    rw [toList_locals_rename, valueAt?_map (VType.width_rename r)]
  -- a load succeeds if there is a value in the slot that is not `top`
  have hforth : ∀ v, f.load slot = .ok v → (f.rename r).load slot = .ok (v.rename r) := by
    intro v hload
    obtain ⟨hv, hne⟩ := (load_eq_ok_iff ..).mp hload
    refine (load_eq_ok_iff ..).mpr ⟨?_, fun htop => hne (VType.rename_eq_top_iff.mp htop)⟩
    rw [hvalue, hv]
    rfl
  have hback : ∀ w, (f.rename r).load slot = .ok w → ∃ v, f.load slot = .ok v := by
    intro w hload
    obtain ⟨hw, hne⟩ := (load_eq_ok_iff ..).mp hload
    rw [hvalue] at hw
    obtain ⟨v, hv, rfl⟩ := Option.map_eq_some_iff.mp hw
    exact ⟨v, (load_eq_ok_iff ..).mpr ⟨hv, fun htop => hne (by rw [htop]; rfl)⟩⟩
  cases hload : f.load slot with
  | ok v =>
    rw [hforth v hload]
    rfl
  | error e =>
    cases hload' : (f.rename r).load slot with
    | error e' => trivial
    | ok w =>
      obtain ⟨v, hv⟩ := hback w hload'
      rw [hload] at hv
      cases hv

/-- Locals may be renamed before or after they are cut off at a slot. -/
theorem map_rename_takeWords (values : List VType) (n : Nat) :
    (takeWords values n).map (VType.rename r) = takeWords (values.map (VType.rename r)) n := by
  induction values generalizing n with
  | nil => simp [takeWords]
  | cons v rest ih =>
    rw [List.map_cons, takeWords, takeWords, VType.width_rename]
    split
    · rfl
    · split
      · rw [List.map_cons, ih]
      · simp

/-- Locals may be renamed before or after those in front of a slot are left out. -/
theorem map_rename_dropWords (values : List VType) (n : Nat) :
    (dropWords values n).map (VType.rename r) = dropWords (values.map (VType.rename r)) n := by
  induction values generalizing n with
  | nil => rfl
  | cons v rest ih =>
    rw [List.map_cons, dropWords, dropWords, VType.width_rename]
    split
    · rfl
    · split
      · exact ih _
      · simp

/-- Storing a renamed value in a renamed frame gives the renamed result. -/
theorem rename_store (slot : UInt16) (v : VType) :
    (f.store slot v).rename r = (f.rename r).store slot (v.rename r) := by
  refine ext_toList ?_ rfl
  rw [toList_locals_rename, store, store, WordSeq.toList_ofList, WordSeq.toList_ofList,
    toList_locals_rename, List.map_append, List.map_cons, map_rename_takeWords,
    map_rename_dropWords, VType.width_rename]

/-- A frame may be renamed before or after a constructor has run on one of its values. -/
theorem rename_construct (v : VType) (this : ClassName) :
    (f.construct v this).rename r = (f.rename r).construct (v.rename r) this := by
  -- the copies of a value are renamed to the copies of its renaming, and to nothing else
  have hchange : ∀ values : List VType,
      (values.map fun w => if w = v then v.constructed this else w).map (VType.rename r)
        = (values.map (VType.rename r)).map fun w =>
            if w = v.rename r then (v.rename r).constructed this else w := by
    intro values
    rw [List.map_map, List.map_map]
    refine List.map_congr_left fun w _ => ?_
    show VType.rename r (if w = v then _ else _) = if w.rename r = v.rename r then _ else _
    by_cases hw : w = v
    · rw [if_pos hw, if_pos (by rw [hw]), VType.rename_constructed]
    · rw [if_neg hw, if_neg fun heq => hw (VType.rename_inj.mp heq)]
  refine ext_toList ?_ (hchange f.stack)
  rw [toList_locals_rename]
  show (WordSeq.ofList _).toList.map _ = (WordSeq.ofList _).toList
  rw [WordSeq.toList_ofList, WordSeq.toList_ofList, toList_locals_rename, hchange]

end Frame

/-- With the values that an action names renamed. -/
def Action.rename (r : Renaming) : Action → Action
  | .take check => .take (check.rename r)
  | .push v => .push (v.rename r)
  | .expectLocal slot v => .expectLocal slot (v.rename r)
  | .storeLocal slot v => .storeLocal slot (v.rename r)
  | a => a

/-- An action and its renaming name corresponding values. -/
theorem Action.like_rename (r : Renaming) (a : Action) :
    a.Like (fun v w => w = v.rename r) (fun _ _ => True) (a.rename r) := by
  cases a with
  | take check => exact .take _ _ (check.like_rename r)
  | push v => exact .push v _ rfl
  | expectLocal slot v => exact .expectLocal slot v _ rfl
  | storeLocal slot v => exact .storeLocal slot v _ rfl
  | element => exact .element
  | takeTwoReferences => exact .takeTwoReferences
  | loadReference slot => exact .loadReference slot
  | storeReference slot => exact .storeReference slot
  | shuffle how => exact .shuffle how
  | construct this => exact .construct this
  | raise => exact .raise
  | fail e => exact .fail e e trivial

/-- A frame is like its renaming. The causes of failures may name allocations, so they are left
open. -/
def Likeness.renaming (r : Renaming) : Likeness where
  value v w := w = v.rename r
  cause _ _ := True
  frame f g := g = f.rename r
  width_eq := by
    rintro v _ rfl
    exact (VType.width_rename r v).symm
  element := by
    rintro v _ rfl
    exact VType.rename_elementOf.symm
  error? := by
    rintro check _ v _ hcheck rfl
    obtain rfl := hcheck.eq_rename
    -- whether a check fails is the same; its cause may name the value, hence `True` above
    have hiff := @Check.error?_rename r check v
    cases h : check.error? v with
    | none => rw [hiff.mpr h]; exact .none
    | some e =>
      cases h' : (check.rename r).error? (v.rename r) with
      | none => rw [hiff.mp h'] at h; cases h
      | some e' => exact .some trivial
  underflow := trivial
  splitsWide := trivial
  stack := by
    rintro f _ rfl
    exact VType.forall₂_rename_iff.mpr (Frame.stack_rename r f)
  withStack := by
    rintro f _ stack _ rfl hstack
    obtain rfl := VType.forall₂_rename_iff.mp hstack
    rfl
  load := by
    rintro f _ rfl slot
    exact f.agree_load r slot
  store := by
    rintro f _ v _ rfl slot rfl
    exact (Frame.rename_store slot v).symm
  construct := by
    rintro f _ v _ rfl rfl this
    exact (Frame.rename_construct v this).symm

/-- Actions in a row do the same to a renamed frame, if what they name is renamed. -/
theorem Frame.agree_perform (r : Renaming) (actions : List Action) (f : Frame) :
    Agree (fun g g' => g' = g.rename r) (f.perform actions)
      ((f.rename r).perform (actions.map (Action.rename r))) := by
  refine ((Likeness.renaming r).agree_perform (f := f) rfl ?_).imp (fun _ _ _ => trivial)
    fun _ _ h => h
  rw [List.forall₂_map_right_iff]
  exact List.forall₂_same.mpr fun a _ => a.like_rename r

/-! ## The tables

What an instruction names is fixed by the body, where allocations do not occur. So renaming leaves
its actions alone, but for the site of a `new`. -/

section

variable (r : Renaming)

/-- Numbers have no site. -/
@[simp] theorem NumberKind.rename_value (k : NumberKind) : VType.rename r k.value = k.value := by
  cases k <;> rfl

@[simp] theorem WholeKind.rename_value (k : WholeKind) : VType.rename r k.value = k.value := by
  cases k <;> rfl

@[simp] theorem ShortConstant.rename_value (c : ShortConstant) :
    VType.rename r c.value = c.value := by
  cases c <;> rfl

/-- Constants have no site. -/
@[simp] theorem Constant.rename_value (c : Constant) : VType.rename r c.value = c.value := by
  cases c <;> rfl

@[simp] theorem Conversion.rename_source (c : Conversion) : VType.rename r c.source = c.source := by
  cases c <;> rfl

@[simp] theorem Conversion.rename_target (c : Conversion) : VType.rename r c.target = c.target := by
  cases c <;> rfl

@[simp] theorem ElementKind.rename_value (k : ElementKind) : VType.rename r k.value = k.value := by
  cases k with
  | number k => exact k.rename_value r
  | _ => rfl

/-- Values of declared types have no site. -/
@[simp] theorem VType.rename_ofField (t : FieldType) :
    VType.rename r (VType.ofField t) = VType.ofField t := by
  cases t with
  | base t => cases t <;> rfl
  | ref t => rfl

namespace Action

/-- A field takes no value with a site. -/
theorem rename_takeField (t : FieldType) : (takeField t).rename r = takeField t := by
  cases t with
  | base t => exact congrArg takeExactly (VType.rename_ofField r (.base t))
  | ref t => rfl

/-- Arguments are taken by their declared types, which have no site. -/
theorem map_rename_takeArguments (d : MethodDescriptor) :
    (takeArguments d).map (Action.rename r) = takeArguments d := by
  unfold takeArguments
  rw [List.map_map]
  exact List.map_congr_left fun t _ => rename_takeField r t

/-- A result is pushed by its declared type, which has no site. -/
theorem map_rename_pushResult (d : MethodDescriptor) :
    (pushResult d).map (Action.rename r) = pushResult d := by
  unfold pushResult
  split
  · rfl
  · next t _ => exact congrArg (fun v => [Action.push v]) (VType.rename_ofField r t)

/-- A receiver is not named by a site. -/
theorem map_rename_takeReceiver (this : ClassName) (kind : InvokeKind) (m : MethodRef) :
    (takeReceiver this kind m).map (Action.rename r) = takeReceiver this kind m := by
  unfold takeReceiver
  split
  · rfl
  · split <;> rfl

theorem map_rename_expectResult (result : Option FieldType) (accepted : Bool) :
    (expectResult result accepted).map (Action.rename r) = expectResult result accepted := by
  cases accepted <;> rfl

end Action

/-- Nothing that an instruction names is an allocation, but for what a `new` makes. -/
theorem Instruction.map_rename_actions (this : ClassName) (site : Option Label) (i : Instruction) :
    (i.actions this site).map (Action.rename r) = i.actions this (site.map r.label) := by
  cases i with
  -- the only instruction with an allocation, and its site is renamed on both sides
  | new c => cases site <;> rfl
  | load k slot =>
    cases k <;> simp [Instruction.actions, Action.rename]
  | store k slot =>
    cases k <;> simp [Instruction.actions, Action.rename, Action.takeExactly, Check.rename]
  | arrayLoad k =>
    cases k <;> simp [Instruction.actions, Action.rename, Action.takeExactly, Check.rename]
  | arrayStore k =>
    cases k <;> simp [Instruction.actions, Action.rename, Action.takeExactly, Check.rename]
  | putStatic f => exact congrArg (fun a => [a]) (Action.rename_takeField r f.descriptor)
  | putField f =>
    exact congrArg (fun a => [a, .take (.receiver f.className this)])
      (Action.rename_takeField r f.descriptor)
  | invoke kind m =>
    simp only [Instruction.actions, List.map_append, Action.map_rename_takeArguments,
      Action.map_rename_takeReceiver, Action.map_rename_pushResult]
  | invokeDynamic d =>
    simp only [Instruction.actions, List.map_append, Action.map_rename_takeArguments,
      Action.map_rename_pushResult]
  | _ => simp [Instruction.actions, Action.rename, Action.takeExactly, Check.rename]

/-- Nothing that a branch names is an allocation. -/
theorem Branch.map_rename_actions (result : Option FieldType) (b : Branch) :
    (b.actions result).map (Action.rename r) = b.actions result := by
  cases b with
  | returnValue k =>
    cases k <;> simp [Branch.actions, Action.rename, Action.takeExactly, Check.rename,
      Action.map_rename_expectResult]
  | returnVoid => exact Action.map_rename_expectResult r result _
  | _ => simp [Branch.actions, Action.rename, Action.takeExactly, Check.rename]

end

/-- The site makes no difference to an instruction other than `new`. -/
theorem Instruction.actions_of_not_new {i : Instruction} (h : ∀ c, i ≠ .new c) (this : ClassName)
    (site site' : Option Label) : i.actions this site = i.actions this site' := by
  cases i with
  | new c => exact absurd rfl (h c)
  | load k slot => cases k <;> rfl
  | store k slot => cases k <;> rfl
  | arrayLoad k => cases k <;> rfl
  | arrayStore k => cases k <;> rfl
  | _ => rfl

namespace Frame

variable {r : Renaming} {f g : Frame} {oracle : Oracle}

/-- An instruction does the same to a renamed frame, if the site of a `new` is renamed. -/
theorem agree_execute (r : Renaming) (f : Frame) (this : ClassName) {i : Instruction}
    {site site' : Option Label} (h : ∀ c, i = .new c → site' = site.map r.label) :
    Agree (fun g g' => g' = g.rename r) (f.execute this site i)
      ((f.rename r).execute this site' i) := by
  have hactions : i.actions this site' = (i.actions this site).map (Action.rename r) := by
    rw [Instruction.map_rename_actions]
    by_cases hnew : ∃ c, i = .new c
    · obtain ⟨c, hc⟩ := hnew
      rw [h c hc]
    · exact Instruction.actions_of_not_new (fun c hc => hnew ⟨c, hc⟩) this _ _
  unfold execute
  rw [hactions]
  exact agree_perform r _ f

/-- A branch does the same to a renamed frame. -/
theorem agree_executeBranch (r : Renaming) (f : Frame) (result : Option FieldType) (b : Branch) :
    Agree (fun g g' => g' = g.rename r) (f.executeBranch result b)
      ((f.rename r).executeBranch result b) := by
  have hperform := agree_perform r (b.actions result) f
  rw [b.map_rename_actions r result] at hperform
  exact hperform

/-- Parameters are no allocations. -/
theorem rename_entry (m : Method) : (entry m).rename r = entry m := by
  have hparameters : (m.descriptor.parameters.map VType.ofField).map (VType.rename r)
      = m.descriptor.parameters.map VType.ofField := by
    rw [List.map_map]
    exact List.map_congr_left fun t _ => VType.rename_ofField r t
  have hreceiver : ∀ c uninitialized, VType.rename r (VType.receiver c uninitialized)
      = VType.receiver c uninitialized := fun c uninitialized => by
    cases uninitialized <;> rfl
  refine ext_toList ?_ rfl
  unfold entry ofValues
  rw [toList_locals_rename, WordSeq.toList_ofList, List.map_append, hparameters]
  split
  · rfl
  · rw [List.map_singleton, hreceiver]

end Frame

/-! ## Merging

Merging asks whether two values are equal and whether classes are, and renaming answers neither
differently. -/

/-- Renamed values fit on a stack if the values do. -/
theorem VType.Fits.rename_iff {oracle : Oracle} {r : Renaming} {v w : VType} :
    (v.rename r).Fits oracle (w.rename r) ↔ v.Fits oracle w := by
  unfold VType.Fits
  rw [← rename_merge, width_rename, width_rename, width_rename]

namespace Cell

/-- A word with the site of its value renamed. -/
def rename (r : Renaming) : Cell → Cell
  | .first v => .first (v.rename r)
  | .second v => .second (v.rename r)

/-- The words of renamed values are the renamed words. -/
theorem ofValues_map (r : Renaming) (values : List VType) :
    ofValues (values.map (VType.rename r)) = (ofValues values).map (rename r) := by
  have hvalue : ∀ v : VType, ofValue (v.rename r) = (ofValue v).map (rename r) := fun v => by
    unfold ofValue
    rw [VType.width_rename]
    split <;> rfl
  unfold ofValues
  rw [List.flatMap_map, List.map_flatMap]
  simp only [hvalue]

/-- Words are merged and renamed in either order. -/
theorem merge_rename (oracle : Oracle) (r : Renaming) (c d : Cell) :
    (c.rename r).merge oracle (d.rename r) = (c.merge oracle d).map (VType.rename r) := by
  cases c with
  | first v =>
    cases d with
    | first w =>
      simp only [rename, merge, VType.width_rename, Option.map_some]
      split
      · rw [VType.rename_merge]
      · rfl
    | second w => rfl
  | second v =>
    cases d with
    | first w => rfl
    | second w =>
      simp only [rename, merge, ← VType.rename_merge, VType.width_rename]
      -- the merge of two wide values is wide or `top`, before renaming and after
      split <;> rfl

end Cell

/-- Locals are merged and renamed in either order. -/
theorem mergeLocals_map (oracle : Oracle) (r : Renaming) (a b : List VType) :
    mergeLocals oracle (a.map (VType.rename r)) (b.map (VType.rename r))
      = (mergeLocals oracle a b).map (VType.rename r) := by
  unfold mergeLocals
  rw [Cell.ofValues_map, Cell.ofValues_map, List.zip_map, List.filterMap_map, List.map_filterMap]
  refine List.filterMap_congr fun pair _ => ?_
  exact Cell.merge_rename oracle r pair.1 pair.2

/-- Renamed frames merge if the frames do, to the renamed frame. -/
theorem Frame.agree_merge (oracle : Oracle) (r : Renaming) (f g : Frame) :
    Agree (fun m m' => m' = m.rename r) (f.merge oracle g)
      ((f.rename r).merge oracle (g.rename r)) := by
  -- whether frames merge depends on their stacks, and values fit exactly if their renamings do
  have hfits : List.Forall₂ (VType.Fits oracle) (f.rename r).stack (g.rename r).stack
      ↔ List.Forall₂ (VType.Fits oracle) f.stack g.stack := by
    rw [stack_rename, stack_rename, List.forall₂_map_left_iff, List.forall₂_map_right_iff]
    simp only [VType.Fits.rename_iff]
  cases hmerge : f.merge oracle g with
  | ok m =>
    obtain ⟨hall, rfl⟩ := merge_eq_ok_iff.mp hmerge
    rw [merge_eq_ok_iff.mpr ⟨hfits.mpr hall, rfl⟩]
    refine ext_toList ?_ ?_
    · rw [toList_locals_rename, toList_locals_rename, toList_locals_rename]
      show (WordSeq.ofList _).toList = (WordSeq.ofList _).toList.map _
      rw [WordSeq.toList_ofList, WordSeq.toList_ofList, mergeLocals_map]
    · show List.zipWith _ (f.stack.map _) (g.stack.map _) = (List.zipWith _ f.stack g.stack).map _
      rw [List.zipWith_map, List.map_zipWith]
      simp only [VType.rename_merge]
  | error e =>
    cases hmerge' : (f.rename r).merge oracle (g.rename r) with
    | error e' => trivial
    | ok m =>
      have hall := hfits.mp (merge_eq_ok_iff.mp hmerge').1
      rw [merge_eq_ok_iff.mpr ⟨hall, rfl⟩] at hmerge
      cases hmerge

/-! ## Snapshots

Only `top` is dropped from the end of the locals, and renaming neither adds nor removes one. -/

namespace Snapshot

variable {α β : Type}

/-- With each value replaced. -/
def map (change : α → β) (s : Snapshot α) : Snapshot β := ⟨s.locals.map change, s.stack.map change⟩

/-- A one-to-one change of values is a one-to-one change of snapshots. -/
theorem map_injective {change : α → β} (h : ∀ a b, change a = change b → a = b)
    (s t : Snapshot α) (heq : s.map change = t.map change) : s = t := by
  obtain ⟨locals, stack⟩ := s
  obtain ⟨locals', stack'⟩ := t
  obtain ⟨hlocals, hstack⟩ := Snapshot.mk.inj heq
  exact Snapshot.mk.injEq .. ▸ ⟨(List.map_inj_right h).mp hlocals, (List.map_inj_right h).mp hstack⟩

/-- Trimming drops the same values before and after renaming. -/
theorem trim_map (r : Renaming) (values : List VType) :
    trim (values.map (VType.rename r)) = (trim values).map (VType.rename r) := by
  unfold trim
  rw [← List.map_reverse, List.dropWhile_map, ← List.map_reverse]
  congr 3
  funext v
  cases v <;> rfl

end Snapshot

/-- The snapshot of a renamed frame is the renamed snapshot. -/
theorem Frame.snapshot_rename (r : Renaming) (f : Frame) :
    (f.rename r).snapshot = f.snapshot.map (VType.rename r) := by
  unfold snapshot Snapshot.ofValues Snapshot.map
  rw [toList_locals_rename, Snapshot.trim_map, stack_rename, List.map_reverse]

/-! ## Compressed frames

How a snapshot is compressed depends on which of its values are equal to those before. A one-to-one
change of values keeps all of that. -/

namespace StackMapFrame

variable {α β : Type}

/-- With each value replaced. -/
def map (change : α → β) : StackMapFrame α → StackMapFrame β
  | same => same
  | sameLocalsOneStack v => sameLocalsOneStack (change v)
  | chop n => chop n
  | append extra => append (extra.map change)
  | full s => full (s.map change)

end StackMapFrame

/-- A one-to-one change keeps which lists begin with which. -/
theorem prefix_map_iff {α β : Type} {change : α → β} (h : ∀ a b, change a = change b → a = b)
    {a b : List α} : a.map change <+: b.map change ↔ a <+: b := by
  rw [List.prefix_iff_eq_take, List.prefix_iff_eq_take, List.length_map, ← List.map_take,
    List.map_inj_right h]

/-- Snapshots may be changed before or after one is compressed against the other, if the change is
one-to-one. -/
theorem Snapshot.compress_map {α β : Type} [DecidableEq α] [DecidableEq β] {change : α → β}
    (h : ∀ a b, change a = change b → a = b) (previous s : Snapshot α) :
    (previous.map change).compress (s.map change) = (previous.compress s).map change := by
  obtain ⟨locals, stack⟩ := s
  unfold compress
  -- by the size of the stack, as `compress` goes about it
  match stack with
  | [] =>
    simp only [map, List.map_nil, List.length_map, prefix_map_iff h]
    split
    · split
      · split <;> rfl
      · rfl
    · split
      · rw [StackMapFrame.map, List.map_drop]
      · rfl
  | [v] =>
    simp only [map, List.map_cons, List.map_nil, List.map_inj_right h]
    split <;> rfl
  | _ :: _ :: _ => rfl

end JvmFrames
