import JvmFrames.Proofs.Assignable
import JvmFrames.Proofs.Machine.Flow
import JvmFrames.Proofs.WordEffect

/-!
# What all values of a run have in common

If a property holds of the values on entry to a method and of every value its instructions bring in,
and if merging keeps it, it holds of all values at all times. `Action.Supplies` says what an action
brings in, and `Body.flow_of_uniform` makes a property of single frames into one of whole runs.
-/

namespace JvmFrames

/-- The values that an action brings into a frame have a property, if those it finds there do. -/
def Action.Supplies (P : VType → Prop) : Action → Prop
  | .push v => P v
  | .storeLocal _ v => P v
  | .element => ∀ v, P v → P v.elementOf
  | .construct this => ∀ v, P v → P (v.constructed this)
  | _ => True

/-! ## One action

A value in the frame after an action was there before, or is unusable, or was brought in by the
action. -/

theorem Shuffle.Rearranges.subset {how : Shuffle} {taken given : List VType}
    (h : how.Rearranges taken given) : ∀ v ∈ given, v ∈ taken := by
  cases h <;> simp <;> grind

namespace Frame

variable {P : VType → Prop} {f f' : Frame}

/-- What is left in front of a cut was there before, or is unusable. -/
theorem mem_takeWords {values : List VType} {n : Nat} {v : VType} (h : v ∈ takeWords values n) :
    v ∈ values ∨ v = .top := by
  induction values generalizing n with
  | nil =>
    rw [takeWords] at h
    exact Or.inr (List.eq_of_mem_replicate h)
  | cons w rest ih =>
    rw [takeWords] at h
    split at h
    · cases h
    · split at h
      · rcases List.mem_cons.mp h with rfl | h
        · exact Or.inl (List.mem_cons_self ..)
        · exact (ih h).imp_left (List.mem_cons_of_mem _)
      · exact Or.inr (List.eq_of_mem_replicate h)

/-- What is left behind a cut was there before, or is unusable. -/
theorem mem_dropWords {values : List VType} {n : Nat} {v : VType} (h : v ∈ dropWords values n) :
    v ∈ values ∨ v = .top := by
  induction values generalizing n with
  | nil => cases h
  | cons w rest ih =>
    rw [dropWords] at h
    split at h
    · exact Or.inl h
    · split at h
      · exact (ih h).imp_left (List.mem_cons_of_mem _)
      · rcases List.mem_append.mp h with h | h
        · exact Or.inr (List.eq_of_mem_replicate h)
        · exact Or.inl (List.mem_cons_of_mem _ h)

theorem Holds.withStack (hf : f.Holds P) {stack : List VType} (hstack : ∀ v ∈ stack, P v) :
    Frame.Holds P { f with stack } := ⟨hf.1, hstack⟩

/-- A property of all values is kept by storing one that has it. -/
theorem Holds.store (htop : P .top) (hf : f.Holds P) (slot : UInt16) {v : VType} (hv : P v) :
    (f.store slot v).Holds P := by
  refine ⟨fun w hw => ?_, hf.2⟩
  rw [Frame.store, WordSeq.toList_ofList] at hw
  have hkept : w ∈ f.locals.toList ∨ w = .top → P w := by
    rintro (hmem | rfl)
    · exact hf.1 w hmem
    · exact htop
  rcases List.mem_append.mp hw with hw | hw
  · exact hkept (mem_takeWords hw)
  · rcases List.mem_cons.mp hw with rfl | hw
    · exact hv
    · exact hkept (mem_dropWords hw)

/-- Completing an allocation keeps the property, if the completed value has it. -/
theorem Holds.construct (hf : f.Holds P) {v : VType} {this : ClassName}
    (hv : P (v.constructed this)) : (f.construct v this).Holds P := by
  have hchange : ∀ {values : List VType}, (∀ w ∈ values, P w) →
      ∀ w ∈ values.map (fun w => if w = v then v.constructed this else w), P w := by
    intro values hvalues w hw
    obtain ⟨x, hx, rfl⟩ := List.mem_map.mp hw
    split
    · exact hv
    · exact hvalues x hx
  refine ⟨fun w hw => ?_, hchange hf.2⟩
  rw [Frame.construct, Frame.map, WordSeq.map, WordSeq.toList_ofList] at hw
  exact hchange hf.1 w hw

end Frame

/-- A property of all values is kept by an action that brings in only values that have it. -/
theorem Action.Acts.holds {P : VType → Prop} {f f' : Frame} {a : Action} (htop : P .top)
    (ha : a.Supplies P) (hf : f.Holds P) (h : a.Acts f f') : f'.Holds P := by
  have hstack := hf.2
  cases h with
  | take check v rest heq hv =>
    rw [heq] at hstack
    exact hf.withStack fun w hw => hstack w (List.mem_cons_of_mem _ hw)
  | push v =>
    refine hf.withStack fun w hw => ?_
    rcases List.mem_cons.mp hw with rfl | hw
    · exact ha
    · exact hstack w hw
  | element v rest heq hv =>
    rw [heq] at hstack
    refine hf.withStack fun w hw => ?_
    rcases List.mem_cons.mp hw with rfl | hw
    · exact ha v (hstack v (List.mem_cons_self ..))
    · exact hstack w (List.mem_cons_of_mem _ hw)
  | takeTwoReferences v w rest heq hv hw =>
    rw [heq] at hstack
    exact hf.withStack fun x hx => hstack x (List.mem_cons_of_mem _ (List.mem_cons_of_mem _ hx))
  | expectLocal slot v hload => exact hf
  | loadReference slot v hload hv =>
    have hmem := mem_of_valueAt? ((Frame.load_eq_ok_iff ..).mp hload).1
    refine hf.withStack fun w hw => ?_
    rcases List.mem_cons.mp hw with rfl | hw
    · exact hf.1 w hmem
    · exact hstack w hw
  | storeLocal slot v => exact hf.store htop slot ha
  | storeReference slot v rest heq hv =>
    rw [heq] at hstack
    have hrest := hf.withStack fun w hw => hstack w (List.mem_cons_of_mem _ hw)
    exact hrest.store htop slot (hstack v (List.mem_cons_self ..))
  | shuffle how taken given rest heq hhow =>
    -- a shuffle gives back only what it has taken
    rw [heq] at hstack
    refine hf.withStack fun w hw => ?_
    rcases List.mem_append.mp hw with hw | hw
    · exact hstack w (List.mem_append_left _ (hhow.subset w hw))
    · exact hstack w (List.mem_append_right _ hw)
  | construct this v rest heq hv =>
    rw [heq] at hstack
    have hrest := hf.withStack fun w hw => hstack w (List.mem_cons_of_mem _ hw)
    exact hrest.construct (ha v (hstack v (List.mem_cons_self ..)))
  | raise v rest heq hv =>
    rw [heq] at hstack
    refine hf.withStack fun w hw => ?_
    rw [List.mem_singleton.mp hw]
    exact hstack v (List.mem_cons_self ..)

/-- Locals grow only by stores, and a slot is a number of sixteen bits. -/
theorem Action.Acts.words_le {f f' : Frame} {a : Action} {limit : Nat} (hlimit : 65537 ≤ limit)
    (hf : f.locals.words ≤ limit) (h : a.Acts f f') : f'.locals.words ≤ limit := by
  rw [h.words_eq]
  cases a with
  | storeLocal slot v =>
    have hslot := slot.toNat_lt
    have hwidth := width_eq_one_or_two v
    exact Nat.max_le.mpr ⟨hf, by omega⟩
  | storeReference slot =>
    have hslot := slot.toNat_lt
    exact Nat.max_le.mpr ⟨hf, by omega⟩
  | _ => exact hf

/-! ## The tables

What instructions bring in, going through their actions. Besides plain values there are only the
references that an instruction names, elements of arrays, and what constructors complete. -/

/-- The reference a declared type is, if it is one. -/
def FieldType.references : FieldType → List RefType
  | .base _ => []
  | .ref t => [t]

/-- The types of the references that an instruction makes. -/
def Instruction.references : Instruction → List RefType
  | .ldc c => match c.value with
    | .object t => [t]
    | _ => []
  | .getStatic f | .getField f => f.descriptor.references
  | .invoke _ m => m.descriptor.result.toList.flatMap FieldType.references
  | .invokeDynamic d => d.descriptor.result.toList.flatMap FieldType.references
  | .new c => [.object c]
  | .newArray t => [.arrayOf (.base t)]
  | .newRefArray t => [.arrayOf (.ref t)]
  | .newMultiArray t _ => [t]
  | .checkCast t => [t]
  | _ => []

/-- A property of all values that are not objects or under construction, which elements of arrays
and completed allocations have as well. -/
structure VType.Closed (P : VType → Prop) (this : ClassName) : Prop where
  top : P .top
  integer : P .integer
  float : P .float
  long : P .long
  double : P .double
  null : P .null
  element : ∀ v, P v → P v.elementOf
  constructed : ∀ v, P v → P (v.constructed this)

namespace VType.Closed

variable {P : VType → Prop} {this : ClassName}

/-- The value of a declared type has the property if the reference it names has. -/
theorem field (hclosed : VType.Closed P this) {t : FieldType}
    (ht : ∀ r ∈ t.references, P (.object r)) : P (VType.ofField t) := by
  cases t with
  | base t =>
    cases t with
    | float => exact hclosed.float
    | long => exact hclosed.long
    | double => exact hclosed.double
    | _ => exact hclosed.integer
  | ref r => exact ht r (List.mem_singleton_self r)

/-- The result of a call has the property if the reference it names has. -/
theorem pushResult (hclosed : VType.Closed P this) {d : MethodDescriptor}
    (hd : ∀ r ∈ d.result.toList.flatMap FieldType.references, P (.object r)) :
    ∀ a ∈ Action.pushResult d, a.Supplies P := by
  intro a ha
  unfold Action.pushResult at ha
  cases hresult : d.result with
  | none => rw [hresult] at ha; cases ha
  | some t =>
    rw [hresult] at ha hd
    rw [List.mem_singleton.mp ha]
    exact hclosed.field fun r hr => hd r (by simpa using hr)

theorem supplies_takeField (P : VType → Prop) (t : FieldType) :
    (Action.takeField t).Supplies P := by
  cases t <;> trivial

theorem supplies_takeArguments (P : VType → Prop) (d : MethodDescriptor) :
    ∀ a ∈ Action.takeArguments d, a.Supplies P := by
  intro a ha
  obtain ⟨t, _, rfl⟩ := List.mem_map.mp ha
  exact supplies_takeField P t

/-- Taking a receiver brings in the completed one at most. -/
theorem takeReceiver (hclosed : VType.Closed P this) (kind : InvokeKind) (m : MethodRef) :
    ∀ a ∈ Action.takeReceiver this kind m, a.Supplies P := by
  unfold Action.takeReceiver
  split
  · simpa [Action.Supplies] using hclosed.constructed
  · split <;> simp [Action.Supplies]

/-- What an instruction brings in, apart from the references it makes, is plain. -/
theorem instruction (hclosed : VType.Closed P this) {site : Option Label} {i : Instruction}
    (hi : ∀ t ∈ i.references, P (.object t))
    (hnew : ∀ c l, i = .new c → site = some l → P (VType.allocated c l)) :
    ∀ a ∈ i.actions this site, a.Supplies P := by
  have hnumber : ∀ k : NumberKind, P k.value := by
    intro k
    cases k <;> simp [NumberKind.value, hclosed.integer, hclosed.float, hclosed.long,
      hclosed.double]
  have hwhole : ∀ k : WholeKind, P k.value := by
    intro k
    cases k <;> simp [WholeKind.value, hclosed.integer, hclosed.long]
  cases i with
  | const c =>
    cases c <;> simp [Instruction.actions, Action.Supplies, ShortConstant.value, hclosed.null,
      hclosed.integer, hclosed.float, hclosed.long, hclosed.double]
  | ldc c =>
    cases c with
    | integer _ => simp [Instruction.actions, Action.Supplies, Constant.value, hclosed.integer]
    | float _ => simp [Instruction.actions, Action.Supplies, Constant.value, hclosed.float]
    | long _ => simp [Instruction.actions, Action.Supplies, Constant.value, hclosed.long]
    | double _ => simp [Instruction.actions, Action.Supplies, Constant.value, hclosed.double]
    | _ =>
      simpa [Instruction.actions, Action.Supplies, Constant.value] using
        hi _ (List.mem_singleton_self _)
  | load kind slot => cases kind <;> simp [Instruction.actions, Action.Supplies, hnumber]
  | store kind slot =>
    cases kind <;> simp [Instruction.actions, Action.Supplies, Action.takeExactly, hnumber]
  | arrayLoad kind =>
    cases kind with
    | reference =>
      simpa [Instruction.actions, Action.Supplies, Action.takeExactly] using hclosed.element
    | _ =>
      simp [Instruction.actions, Action.Supplies, Action.takeExactly, ElementKind.value, hnumber,
        hclosed.integer]
  | arrayStore kind =>
    cases kind <;> simp [Instruction.actions, Action.Supplies, Action.takeExactly]
  | convert c =>
    cases c <;> simp [Instruction.actions, Action.Supplies, Action.takeExactly, Conversion.target,
      hclosed.integer, hclosed.float, hclosed.long, hclosed.double]
  | getStatic f => simpa [Instruction.actions, Action.Supplies] using hclosed.field hi
  | getField f => simpa [Instruction.actions, Action.Supplies] using hclosed.field hi
  | putStatic f => simpa [Instruction.actions] using supplies_takeField P f.descriptor
  | putField f =>
    simpa [Instruction.actions, Action.Supplies] using supplies_takeField P f.descriptor
  | invoke kind m =>
    intro a ha
    rcases List.mem_append.mp ha with ha | ha
    · rcases List.mem_append.mp ha with ha | ha
      · exact supplies_takeArguments P _ a ha
      · exact hclosed.takeReceiver kind m a ha
    · exact hclosed.pushResult hi a ha
  | invokeDynamic d =>
    intro a ha
    rcases List.mem_append.mp ha with ha | ha
    · exact supplies_takeArguments P _ a ha
    · exact hclosed.pushResult hi a ha
  | new c =>
    -- without a label in front of it an allocation has no name, and fails
    cases site with
    | none => simp [Instruction.actions, Action.Supplies]
    | some l => simpa [Instruction.actions, Action.Supplies] using hnew c l rfl rfl
  | newMultiArray t n =>
    intro a ha
    rcases List.mem_append.mp ha with ha | ha
    · rw [List.eq_of_mem_replicate ha]
      trivial
    · rw [List.mem_singleton.mp ha]
      exact hi t (List.mem_singleton_self t)
  | newArray t =>
    simpa [Instruction.actions, Action.Supplies, Action.takeExactly] using
      hi _ (List.mem_singleton_self _)
  | newRefArray t =>
    simpa [Instruction.actions, Action.Supplies, Action.takeExactly] using
      hi _ (List.mem_singleton_self _)
  | checkCast t =>
    simpa [Instruction.actions, Action.Supplies] using hi _ (List.mem_singleton_self _)
  | _ =>
    simp [Instruction.actions, Action.Supplies, Action.takeExactly, hnumber, hwhole,
      hclosed.integer]

end VType.Closed

/-- The receiver on entry is an object of the class or under construction. -/
theorem VType.receiver_of {P : VType → Prop} {c : ClassName} (hraw : P .uninitializedThis)
    (hobject : P (.object (.object c))) (uninitialized : Bool) : P (.receiver c uninitialized) := by
  unfold receiver
  split
  · exact hraw
  · exact hobject

/-- A branch brings nothing in. -/
theorem Branch.supplies (P : VType → Prop) (result : Option FieldType) (b : Branch) :
    ∀ a ∈ b.actions result, a.Supplies P := by
  -- what is checked against the declared result type is only looked at
  have hresult : ∀ accepted, ∀ a ∈ Action.expectResult result accepted, a.Supplies P := by
    intro accepted
    unfold Action.expectResult
    split <;> simp [Action.Supplies]
  cases b with
  | returnValue kind =>
    intro a ha
    cases kind with
    | number k =>
      rcases List.mem_cons.mp ha with rfl | ha
      · trivial
      · exact hresult _ a ha
    | reference =>
      rcases List.mem_cons.mp ha with rfl | ha
      · trivial
      · exact hresult _ a ha
  | returnVoid => exact hresult _
  | _ => simp [actions, Action.Supplies, Action.takeExactly]

namespace Frame

variable {P : VType → Prop} {f f' : Frame}

/-- A property of all values is kept by actions that bring in only values that have it. -/
theorem Holds.perform {actions : List Action} (htop : P .top)
    (hsupplies : ∀ a ∈ actions, a.Supplies P) (hf : f.Holds P)
    (h : f.perform actions = .ok f') : f'.Holds P :=
  perform_induction (fun a ha _ _ hg hacts => hacts.holds htop (hsupplies a ha) hg) h hf

theorem words_le_of_perform {actions : List Action} {limit : Nat} (hlimit : 65537 ≤ limit)
    (hf : f.locals.words ≤ limit) (h : f.perform actions = .ok f') : f'.locals.words ≤ limit :=
  perform_induction (motive := fun g => g.locals.words ≤ limit)
    (fun _ _ _ _ hg hacts => hacts.words_le hlimit hg) h hf

/-- The values on entry to a method. -/
theorem holds_entry {m : Method} (hclosed : VType.Closed P m.className)
    (hreceiver : m.isStatic = false →
      P (.receiver m.className (m.isConstructor && m.className != .object)))
    (hparameters : ∀ t ∈ m.descriptor.parameters.flatMap FieldType.references, P (.object t)) :
    (Frame.entry m).Holds P := by
  refine ⟨fun v hv => ?_, fun v hv => by cases hv⟩
  rw [Frame.entry, Frame.ofValues, WordSeq.toList_ofList] at hv
  rcases List.mem_append.mp hv with hv | hv
  · split at hv
    case isTrue => cases hv
    case isFalse hstatic =>
      rw [List.mem_singleton.mp hv]
      exact hreceiver (Bool.eq_false_iff.mpr hstatic)
  · obtain ⟨t, ht, rfl⟩ := List.mem_map.mp hv
    exact hclosed.field fun r hr => hparameters r (List.mem_flatMap.mpr ⟨t, ht, hr⟩)

end Frame

/-! ## Merges

Each value of a merge comes from one value on either side, or is unusable. -/

/-- The words of a list are words of its values. -/
theorem Cell.mem_of_mem_ofValues {values : List VType} {v : VType}
    (h : .first v ∈ ofValues values ∨ .second v ∈ ofValues values) : v ∈ values := by
  induction values with
  | nil => rcases h with h | h <;> cases h
  | cons w rest ih =>
    rw [ofValues_cons, List.mem_append, List.mem_append] at h
    -- all words of one value name that value
    have hhead : .first v ∈ ofValue w ∨ .second v ∈ ofValue w → v = w := by
      rcases width_eq_one_or_two w with hw | hw
      · rw [ofValue_of_narrow hw]
        simp
      · rw [ofValue_of_wide hw]
        simp
    by_cases hv : .first v ∈ ofValue w ∨ .second v ∈ ofValue w
    · rw [hhead hv]
      exact List.mem_cons_self ..
    · exact List.mem_cons_of_mem _ (ih (by tauto))

/-- A value of merged locals is unusable or merged from a value of each list. -/
theorem mem_mergeLocals {oracle : Oracle} {a b : List VType} {x : VType}
    (h : x ∈ mergeLocals oracle a b) : x = .top ∨ ∃ v ∈ a, ∃ w ∈ b, x = v.merge oracle w := by
  obtain ⟨⟨c, d⟩, hmem, hx⟩ := List.mem_filterMap.mp h
  -- a merged value comes from two first words; any other pair of words gives `top` or nothing
  obtain ⟨hc, hd⟩ := List.of_mem_zip hmem
  cases c with
  | first v =>
    cases d with
    | first w =>
      simp only [Cell.merge, Option.some.injEq] at hx
      split at hx
      · exact Or.inr ⟨v, Cell.mem_of_mem_ofValues (Or.inl hc), w,
          Cell.mem_of_mem_ofValues (Or.inl hd), hx.symm⟩
      · exact Or.inl hx.symm
    | second w => cases hx; exact Or.inl rfl
  | second v =>
    cases d with
    | first w => cases hx; exact Or.inl rfl
    | second w =>
      simp only [Cell.merge] at hx
      split at hx
      · cases hx
      · cases hx; exact Or.inl rfl

/-- Merging frames keeps a property that merging values keeps. -/
theorem Frame.Holds.merge {P : VType → Prop} {oracle : Oracle} {f g m : Frame} (htop : P .top)
    (hmerge : ∀ v w, P v → P w → P (v.merge oracle w)) (hf : f.Holds P) (hg : g.Holds P)
    (h : f.merge oracle g = .ok m) : m.Holds P := by
  obtain ⟨_, rfl⟩ := Frame.merge_eq_ok_iff.mp h
  constructor
  · intro x hx
    rw [WordSeq.toList_ofList] at hx
    rcases mem_mergeLocals hx with rfl | ⟨v, hv, w, hw, rfl⟩
    · exact htop
    · exact hmerge v w (hf.1 v hv) (hg.1 w hw)
  · intro x hx
    rw [← List.map_uncurry_zip_eq_zipWith] at hx
    obtain ⟨⟨v, w⟩, hmem, rfl⟩ := List.mem_map.mp hx
    obtain ⟨hv, hw⟩ := List.of_mem_zip hmem
    exact hmerge v w (hf.2 v hv) (hg.2 w hw)

/-! ## Whole runs

The scheme for invariants of a run, for a property that does not depend on the position. -/

/-- A property of single frames that execution, exceptions and merging keep flows through a run.
Beside it, the join points may have a property that every reception keeps. -/
theorem Body.flow_of_uniform {body : Body} {graph : JoinGraph} {Q : Frame → Prop}
    {R : JoinPoint → Prop} (hbuilt : graph.Built body.code) (hfresh : graph.Fresh)
    (hentry : Q (Frame.entry body.method))
    (hinsn : ∀ (p : Nat) i f f', body.code.nodes[p]? = some (.insn i) → Q f →
      f.execute body.method.className (body.code.siteBefore? p) i = .ok f' → Q f')
    (hbranch : ∀ (p : Nat) b f f', body.code.nodes[p]? = some (.branch b) → Q f →
      f.executeBranch body.method.descriptor.result b = .ok f' → Q f')
    (hcaught : ∀ l t f, graph.catchType? l = some t → Q f → Q (f.caught t))
    (hmerge : ∀ f g m, Q f → Q g → f.merge body.oracle g = .ok m → Q m)
    (hunreached : ∀ j, j.merged = none → j.seen = [] → R j)
    (hreceive : ∀ j k f, (∀ m, j.merged = some m → Q m) → Q f → R j →
      j.Receives body.oracle f k → R k)
    (hpending : ∀ j b, R j → R (j.withPending b)) :
    body.Flow graph (fun _ => Q) (fun _ => Q) (fun _ j => (∀ f, j.merged = some f → Q f) ∧ R j) where
  built := hbuilt
  fresh := fun l j hj => by
    obtain ⟨hmerged, hseen, _⟩ := hfresh l j hj
    refine ⟨fun f hf => ?_, hunreached j hmerged hseen⟩
    rw [hmerged] at hf
    cases hf
  entry := hentry
  pass := fun _ _ _ _ _ hf => hf
  arrive := fun _ _ _ _ _ hf => hf
  frame := fun _ _ _ _ hf => hf
  insn := hinsn
  branch := fun p b f f' hnode hf hexec =>
    ⟨fun _ _ => hbranch p b f f' hnode hf hexec, fun _ => hbranch p b f f' hnode hf hexec⟩
  caught := fun _ _ f l t _ _ hf _ ht => hcaught l t f ht hf
  caughtJoin := fun _ _ f l' t _ _ hf _ ht _ => hcaught l' t f ht hf
  -- the merged frame is the first arrival or a merge, and both have the property
  receive := fun l j k f hj hf hk => by
    refine ⟨fun m hm => ?_, hreceive j k f hj.1 hf hj.2 hk⟩
    cases hk with
    | first _ _ =>
      cases hm
      exact hf
    | joined current _ _ hcurrent hmerged =>
      cases hm
      exact hmerge current f m (hj.1 current hcurrent) hf hmerged
  pending := fun l j b hj => ⟨hj.1, hpending j b hj.2⟩
  resume := fun _ _ j f _ _ hj hf => hj.1 f hf

end JvmFrames
