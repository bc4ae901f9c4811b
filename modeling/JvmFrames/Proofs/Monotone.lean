import JvmFrames.Proofs.Effect
import JvmFrames.Proofs.Hierarchy

/-!
# Execution is monotone

An instruction that executes on a frame executes on every frame that may be assigned to it, and the
results are related in the same way (`Frame.execute_mono`, `Frame.executeBranch_mono`). This is
proved action by action on `Action.Acts`. What it takes of an action is that it asks for no exact
object (`Action.Strict`): null is assignable to an object and is still not the object itself.

A frame that is more precise may have more locals, but never more than either had to begin with or
the other one has now; `Frame.Follows` carries that bound along.
-/

namespace JvmFrames

/-- No other value may be assigned to this one. -/
def VType.Exact (v : VType) : Prop := v ≠ .top ∧ ∀ t, v ≠ .object t

/-- Asks for no exact value that others may be assigned to. -/
def Check.Strict : Check → Prop
  | .exactly v => v.Exact
  | _ => True

def Action.Strict : Action → Prop
  | .take check => check.Strict
  | .expectLocal _ v => v.Exact
  | _ => True

/-- A frame may be assigned to another, and has locals longer than the other's up to `limit`
only. -/
structure Frame.Follows (oracle : Oracle) (limit : Nat) (f g : Frame) : Prop where
  below : f.Assignable oracle g
  words : f.locals.words ≤ max limit g.locals.words

variable {oracle : Oracle} {limit : Nat}

/-! ## Values

A value that may be assigned to another is a reference if that one is, an array if that one is, and
so on. So it passes the same checks. -/

namespace VType

variable {v w : VType}

/-- What is below a reference is a reference. -/
theorem Assignable.isReference (h : v.Assignable oracle w) (hw : w.isReference = true) :
    v.isReference = true := by
  cases h with
  | refl => exact hw
  | top => cases hw
  | null _ => rfl
  | object _ _ _ => rfl

/-- What is below an initialized reference is one. -/
theorem Assignable.isInitialized (h : v.Assignable oracle w) (hw : w.isInitialized = true) :
    v.isInitialized = true := by
  cases h with
  | refl => exact hw
  | top => cases hw
  | null _ => rfl
  | object _ _ _ => rfl

/-- Nothing else is below a value under construction. -/
theorem Assignable.eq_of_isUninitialized (h : v.Assignable oracle w)
    (hw : w.isUninitialized = true) : v = w := by
  cases h with
  | refl => rfl
  | top => cases hw
  | null _ => cases hw
  | object _ _ _ => cases hw

/-- A type that passes for an array of references has elements. -/
theorem exists_element_of_check {t : RefType}
    (h : Check.referenceArray.error? (.object t) = none) : ∃ e, t.referenceElement? = some e := by
  cases he : t.referenceElement? with
  | none => simp [Check.error?, he] at h
  | some e => exact ⟨e, rfl⟩

/-- A check that a value passes is passed by every value that may be assigned to it. -/
theorem Replaces.error? (hlaw : Oracle.Lawful oracle) {check : Check} (hstrict : check.Strict)
    (h : v.Replaces oracle w) (hw : check.error? w = none) : check.error? v = none := by
  obtain ⟨hwidth, hvw⟩ := h
  cases check with
  | exactly x =>
    rw [Check.exactly_error?] at hw ⊢
    subst hw
    exact hvw.eq_of_not_object hstrict.1 hstrict.2
  | reference =>
    rw [Check.reference_error?] at hw ⊢
    exact hvw.isReference hw
  | initialized =>
    rw [Check.initialized_error?] at hw ⊢
    exact hvw.isInitialized hw
  | uninitialized =>
    rw [hvw.eq_of_isUninitialized (Check.uninitialized_error?.mp hw)]
    exact hw
  | narrow =>
    rw [Check.narrow_error?] at hw ⊢
    exact hwidth.trans hw
  | primitiveArray elements =>
    cases hvw with
    | refl => exact hw
    | top => cases hw
    | null _ => rfl
    | object a b hab =>
      -- only arrays with one dimension pass, and there is nothing below those
      cases b with
      | object c => cases hw
      | objectArray n c => cases hw
      | primitiveArray n t =>
        rw [hlaw.primitive a n t hab]
        exact hw
  | referenceArray =>
    cases hvw with
    | refl => exact hw
    | top => cases hw
    | null _ => rfl
    | object a b hab =>
      obtain ⟨e, he⟩ := exists_element_of_check hw
      obtain ⟨d, hd, _⟩ := hlaw.element a b e hab he
      simp [Check.error?, hd]
  | anyArray =>
    cases hvw with
    | refl => exact hw
    | top => cases hw
    | null _ => rfl
    | object a b hab =>
      have hb : b.isArray = true := by simpa [Check.error?] using hw
      simp [Check.error?, hlaw.array a b hab hb]
  | receiver owner this =>
    cases hvw with
    | refl => exact hw
    | top => cases hw
    | null _ => rfl
    | object _ _ _ => rfl

/-- The elements of arrays are in order if the arrays are. -/
theorem Replaces.elementOf (hlaw : Oracle.Lawful oracle) (h : v.Replaces oracle w)
    (hw : Check.referenceArray.error? w = none) :
    v.elementOf.Replaces oracle w.elementOf := by
  obtain ⟨_, hvw⟩ := h
  cases hvw with
  | refl => exact ⟨rfl, .refl _⟩
  | top => cases hw
  -- an element of `null` is `null`, which is below every object
  | null t =>
    obtain ⟨e, he⟩ := exists_element_of_check hw
    simp only [VType.elementOf, he]
    exact ⟨rfl, .null e⟩
  | object a b hab =>
    obtain ⟨e, he⟩ := exists_element_of_check hw
    obtain ⟨d, hd, hde⟩ := hlaw.element a b e hab he
    simp only [VType.elementOf, he, hd]
    exact ⟨rfl, .object d e hde⟩

end VType

/-! ## Stacks

A shuffle looks at widths only, and values that may stand for each other have the same width. So it
can rearrange what is below just as what is above. -/

/-- What stands for two words is two words. -/
theorem TwoWords.of_replaces {a b : List VType}
    (h : List.Forall₂ (VType.Replaces oracle) a b) (hb : TwoWords b) : TwoWords a := by
  cases hb with
  | wide w hw =>
    obtain ⟨v, rest, hvw, hrest, rfl⟩ := List.forall₂_cons_right_iff.mp h
    rw [List.forall₂_nil_right_iff.mp hrest]
    exact .wide v (by rw [hvw.1]; exact hw)
  | narrow w x hw hx =>
    obtain ⟨v, rest, hvw, hrest, rfl⟩ := List.forall₂_cons_right_iff.mp h
    obtain ⟨u, rest', hux, hrest', rfl⟩ := List.forall₂_cons_right_iff.mp hrest
    rw [List.forall₂_nil_right_iff.mp hrest']
    exact .narrow v u (hvw.1.trans hw) (hux.1.trans hx)

/-- A list related to two lists in a row falls into two related lists. -/
theorem exists_append_of_replaces {a b c : List VType}
    (h : List.Forall₂ (VType.Replaces oracle) a (b ++ c)) :
    ∃ b' c', a = b' ++ c' ∧ List.Forall₂ (VType.Replaces oracle) b' b
      ∧ List.Forall₂ (VType.Replaces oracle) c' c := by
  induction b generalizing a with
  | nil => exact ⟨[], a, rfl, .nil, h⟩
  | cons w b ih =>
    obtain ⟨v, rest, hvw, hrest, rfl⟩ := List.forall₂_cons_right_iff.mp h
    obtain ⟨b', c', rfl, hb, hc⟩ := ih hrest
    exact ⟨v :: b', c', rfl, .cons hvw hb, hc⟩

/-- A shuffle of larger values can be done with smaller ones, and gives smaller ones. -/
theorem Shuffle.Rearranges.mono {how : Shuffle} {taken taken' given' : List VType}
    (h : how.Rearranges taken' given') (hrel : List.Forall₂ (VType.Replaces oracle) taken taken') :
    ∃ given, how.Rearranges taken given ∧ List.Forall₂ (VType.Replaces oracle) given given' := by
  -- what stands for a narrow value is one narrow value
  have hone : ∀ {b : VType} {l : List VType}, width b = 1 →
      List.Forall₂ (VType.Replaces oracle) l [b] →
        ∃ a, l = [a] ∧ width a = 1 ∧ a.Replaces oracle b := by
    intro b l hb hl
    obtain ⟨a, rest, hab, hrest, rfl⟩ := List.forall₂_cons_right_iff.mp hl
    rw [List.forall₂_nil_right_iff.mp hrest]
    exact ⟨a, rfl, hab.1.trans hb, hab⟩
  have hpair : ∀ {b c : VType} {l : List VType}, width b = 1 → width c = 1 →
      List.Forall₂ (VType.Replaces oracle) l [b, c] →
        ∃ a d, l = [a, d] ∧ width a = 1 ∧ width d = 1 ∧ a.Replaces oracle b
          ∧ d.Replaces oracle c := by
    intro b c l hb hc hl
    obtain ⟨a, rest, hab, hrest, rfl⟩ := List.forall₂_cons_right_iff.mp hl
    obtain ⟨d, rfl, hd, hdc⟩ := hone hc hrest
    exact ⟨a, d, rfl, hab.1.trans hb, hd, hab, hdc⟩
  cases h with
  | pop b hb =>
    obtain ⟨a, rfl, ha, hab⟩ := hone hb hrel
    exact ⟨_, .pop a ha, .nil⟩
  | pop2 g hg => exact ⟨_, .pop2 taken (hg.of_replaces hrel), .nil⟩
  | dup b hb =>
    obtain ⟨a, rfl, ha, hab⟩ := hone hb hrel
    exact ⟨_, .dup a ha, .cons hab (.cons hab .nil)⟩
  | dupX1 b c hb hc =>
    obtain ⟨a, d, rfl, ha, hd, hab, hdc⟩ := hpair hb hc hrel
    exact ⟨_, .dupX1 a d ha hd, .cons hab (.cons hdc (.cons hab .nil))⟩
  | dupX2 b u hb hu =>
    -- the stacks are taken apart at the same place, since they go value by value
    obtain ⟨l, u', rfl, hl, hu'⟩ := exists_append_of_replaces hrel
    obtain ⟨a, rfl, ha, hab⟩ := hone hb hl
    exact ⟨_, .dupX2 a u' ha (hu.of_replaces hu'),
      List.rel_append (List.rel_append hl hu') hl⟩
  | dup2 g hg => exact ⟨_, .dup2 taken (hg.of_replaces hrel), List.rel_append hrel hrel⟩
  | dup2X1 g b hg hb =>
    obtain ⟨g', l, rfl, hg', hl⟩ := exists_append_of_replaces hrel
    obtain ⟨a, rfl, ha, hab⟩ := hone hb hl
    exact ⟨_, .dup2X1 g' a (hg.of_replaces hg') ha,
      List.rel_append (List.rel_append hg' hl) hg'⟩
  | dup2X2 g u hg hu =>
    obtain ⟨g', u', rfl, hg', hu'⟩ := exists_append_of_replaces hrel
    exact ⟨_, .dup2X2 g' u' (hg.of_replaces hg') (hu.of_replaces hu'),
      List.rel_append (List.rel_append hg' hu') hg'⟩
  | swap b c hb hc =>
    obtain ⟨a, d, rfl, ha, hd, hab, hdc⟩ := hpair hb hc hrel
    exact ⟨_, .swap a d ha hd, .cons hdc (.cons hab .nil)⟩

/-! ## Frames

Each of the operations that actions are made of keeps frames in order: taking from and putting on
the stack, reading and writing a local, and completing an allocation. -/

namespace Frame.Follows

variable {f g : Frame} {v w : VType}

theorem withStack (h : f.Follows oracle limit g) {a b : List VType}
    (hab : List.Forall₂ (VType.Replaces oracle) a b) :
    Frame.Follows oracle limit { f with stack := a } { g with stack := b } :=
  ⟨⟨hab, h.below.locals⟩, h.words⟩

/-- What can be loaded from the larger frame can be loaded from the smaller one. -/
theorem load (h : f.Follows oracle limit g) {slot : UInt16} (hw : g.load slot = .ok w) :
    ∃ v, f.load slot = .ok v ∧ v.Replaces oracle w := by
  rw [Frame.load_eq_ok_iff] at hw
  obtain ⟨v, hv, hvw⟩ := h.below.locals slot.toNat w hw
  exact ⟨v, (Frame.load_eq_ok_iff ..).mpr hv, hvw.width_eq hw.2, hvw⟩

/-- There is a value on top of the smaller stack if there is one on top of the larger one. -/
theorem exists_cons (h : f.Follows oracle limit g) {rest : List VType} (hg : g.stack = w :: rest) :
    ∃ v rest', f.stack = v :: rest' ∧ v.Replaces oracle w
      ∧ List.Forall₂ (VType.Replaces oracle) rest' rest := by
  have hstack := h.below.stack
  rw [hg] at hstack
  obtain ⟨v, rest', hvw, hrest, hf⟩ := List.forall₂_cons_right_iff.mp hstack
  exact ⟨v, rest', hf, hvw, hrest⟩

/-- Storing values of one width, one assignable to the other. -/
theorem store (h : f.Follows oracle limit g) (slot : UInt16) (hvw : v.Replaces oracle w) :
    (f.store slot v).Follows oracle limit (g.store slot w) := by
  refine ⟨⟨h.below.stack, fun n y hy => ?_⟩, ?_⟩
  · rcases usableAt_store_iff.mp hy with ⟨hn, hyw, hne⟩ | ⟨hy, hapart⟩
    · refine ⟨v, usableAt_store_iff.mpr (Or.inl ⟨hn, rfl, hvw.2.ne_top hne⟩), ?_⟩
      rw [hyw]
      exact hvw.2
    · -- what the store does not touch in one frame, it does not touch in the other
      obtain ⟨x, hx, hxy⟩ := h.below.locals n y hy
      refine ⟨x, usableAt_store_iff.mpr (Or.inr ⟨hx, ?_⟩), hxy⟩
      rw [hxy.width_eq hy.2, hvw.1]
      exact hapart
  · have hwords := h.words
    rw [words_store, words_store, hvw.1]
    omega

/-- Replacing values by others of the same width that are related if they were. -/
theorem map (h : f.Follows oracle limit g) {change : VType → VType}
    (hwidth : ∀ v, width (change v) = width v) (htop : change .top = .top)
    (hchange : ∀ v w, v.Assignable oracle w → (change v).Assignable oracle (change w)) :
    (f.map change).Follows oracle limit (g.map change) := by
  have hwords : ∀ k : Frame, (k.map change).locals.words = k.locals.words := by
    intro k
    rw [WordSeq.words_eq_wordCount, WordSeq.words_eq_wordCount]
    show wordCount (WordSeq.ofList (k.locals.toList.map change)).toList = _
    rw [WordSeq.toList_ofList, wordCount_map hwidth]
  have hlist : ∀ k : Frame, (k.map change).locals.toList = k.locals.toList.map change :=
    fun k => WordSeq.toList_ofList _
  refine ⟨⟨?_, fun n y hy => ?_⟩, by rw [hwords, hwords]; exact h.words⟩
  · show List.Forall₂ (VType.Replaces oracle) (f.stack.map change) (g.stack.map change)
    rw [List.forall₂_map_left_iff, List.forall₂_map_right_iff]
    refine h.below.stack.imp fun v w hvw => ⟨?_, hchange v w hvw.2⟩
    rw [hwidth, hwidth]
    exact hvw.1
  · rw [hlist] at hy ⊢
    obtain ⟨hy, hne⟩ := hy
    rw [valueAt?_map hwidth] at hy
    obtain ⟨w, hw, rfl⟩ := Option.map_eq_some_iff.mp hy
    have hwtop : w ≠ .top := fun heq => hne (by rw [heq, htop])
    -- what starts at a word of the changed list was changed from what started there before
    obtain ⟨v, hv, hvw⟩ := h.below.locals n w ⟨hw, hwtop⟩
    have hrel := hchange v w hvw
    refine ⟨change v, ⟨?_, hrel.ne_top hne⟩, hrel⟩
    rw [valueAt?_map hwidth, hv.1]
    rfl

/-- Completing the same allocation in both frames. -/
theorem construct (h : f.Follows oracle limit g) (hv : v.isUninitialized = true)
    (this : ClassName) :
    (f.construct v this).Follows oracle limit (g.construct v this) := by
  refine h.map (width_construct v this) (construct_top v this) fun x y hxy => ?_
  by_cases hy : y = v
  · rw [hy] at hxy ⊢
    rw [hxy.eq_of_isUninitialized hv]
    exact .refl _
  · rw [if_neg hy]
    by_cases hx : x = v
    · -- the allocation was already given up on the other side
      rw [if_pos hx]
      rw [hx] at hxy
      cases hxy with
      | refl => exact absurd rfl hy
      | top => exact .top _
      | null _ => cases hv
      | object _ _ _ => cases hv
    · rw [if_neg hx]
      exact hxy

end Frame.Follows

/-! ## Actions and instructions

One case for each action. An action that names an exact value asks for it on both sides, and it has
to be one that nothing else is below. -/

/-- An action that succeeds on the larger frame succeeds on the smaller one. -/
theorem Action.Acts.mono (hlaw : Oracle.Lawful oracle) {a : Action} (ha : a.Strict) {f g g' : Frame}
    (hfg : f.Follows oracle limit g) (h : a.Acts g g') :
    ∃ f', a.Acts f f' ∧ f'.Follows oracle limit g' := by
  have hstack := hfg.below.stack
  cases h with
  | take check w rest hg hw =>
    obtain ⟨v, rest', hf, hvw, hrest⟩ := hfg.exists_cons hg
    exact ⟨_, .take check v rest' hf (hvw.error? hlaw ha hw), hfg.withStack hrest⟩
  | push w => exact ⟨_, .push w, hfg.withStack (.cons ⟨rfl, .refl w⟩ hstack)⟩
  | element w rest hg hw =>
    obtain ⟨v, rest', hf, hvw, hrest⟩ := hfg.exists_cons hg
    exact ⟨_, .element v rest' hf (hvw.error? hlaw trivial hw),
      hfg.withStack (.cons (hvw.elementOf hlaw hw) hrest)⟩
  | takeTwoReferences w x rest hg hw hx =>
    obtain ⟨v, rest', hf, hvw, hrest⟩ := hfg.exists_cons hg
    obtain ⟨u, rest'', hux, hrest', rfl⟩ := List.forall₂_cons_right_iff.mp hrest
    exact ⟨_, .takeTwoReferences v u rest'' hf (hvw.2.isReference hw) (hux.2.isReference hx),
      hfg.withStack hrest'⟩
  | expectLocal slot w hw =>
    -- an exact type that is no object has nothing else below it
    obtain ⟨v, hv, hvw⟩ := hfg.load hw
    rw [hvw.2.eq_of_not_object ha.1 ha.2] at hv
    exact ⟨f, .expectLocal slot w hv, hfg⟩
  | loadReference slot w hw href =>
    obtain ⟨v, hv, hvw⟩ := hfg.load hw
    exact ⟨_, .loadReference slot v hv (hvw.2.isReference href),
      hfg.withStack (.cons hvw hstack)⟩
  | storeLocal slot w => exact ⟨_, .storeLocal slot w, hfg.store slot ⟨rfl, .refl w⟩⟩
  | storeReference slot w rest hg hw =>
    obtain ⟨v, rest', hf, hvw, hrest⟩ := hfg.exists_cons hg
    exact ⟨_, .storeReference slot v rest' hf (hvw.2.isReference hw),
      (hfg.withStack hrest).store slot hvw⟩
  | shuffle how taken given rest hg hhow =>
    rw [hg] at hstack
    obtain ⟨taken', rest', hf, htaken, hrest⟩ := exists_append_of_replaces hstack
    obtain ⟨given', hhow', hgiven⟩ := hhow.mono htaken
    exact ⟨_, .shuffle how taken' given' rest' hf hhow',
      hfg.withStack (List.rel_append hgiven hrest)⟩
  | construct this w rest hg hw =>
    obtain ⟨v, rest', hf, hvw, hrest⟩ := hfg.exists_cons hg
    rw [hvw.2.eq_of_isUninitialized hw] at hf
    exact ⟨_, .construct this w rest' hf hw, (hfg.withStack hrest).construct hw this⟩
  | raise w rest hg hw =>
    obtain ⟨v, rest', hf, hvw, hrest⟩ := hfg.exists_cons hg
    exact ⟨_, .raise v rest' hf (hvw.2.isInitialized hw), hfg.withStack (.cons hvw .nil)⟩

/-- Actions in a row succeed on the smaller frame if they do on the larger one. -/
theorem Frame.perform_mono (hlaw : Oracle.Lawful oracle) {actions : List Action}
    (hstrict : ∀ a ∈ actions, a.Strict) {f g g' : Frame} (hfg : f.Follows oracle limit g)
    (h : g.perform actions = .ok g') :
    ∃ f', f.perform actions = .ok f' ∧ f'.Follows oracle limit g' := by
  induction actions generalizing f g with
  | nil =>
    cases h
    exact ⟨f, rfl, hfg⟩
  | cons a rest ih =>
    rw [perform] at h
    cases happly : a.apply g with
    | error fault => rw [happly] at h; cases h
    | ok g₁ =>
      rw [happly] at h
      -- the frames after the first action are in order again, so the rest can go on from there
      obtain ⟨f₁, hf₁, hfg₁⟩ :=
        (Action.acts_of_apply happly).mono hlaw (hstrict a (List.mem_cons_self ..)) hfg
      obtain ⟨f', hf', hfg'⟩ := ih (fun b hb => hstrict b (List.mem_cons_of_mem _ hb)) hfg₁ h
      refine ⟨f', ?_, hfg'⟩
      rw [perform, Action.apply_of_acts hf₁]
      exact hf'

/-! ## The tables are strict

No instruction asks for an exact object. What is asked for exactly are numbers, and nothing else is
below these. -/

namespace VType

@[simp] theorem exact_integer : VType.Exact .integer := ⟨nofun, nofun⟩
@[simp] theorem exact_float : VType.Exact .float := ⟨nofun, nofun⟩
@[simp] theorem exact_long : VType.Exact .long := ⟨nofun, nofun⟩
@[simp] theorem exact_double : VType.Exact .double := ⟨nofun, nofun⟩

end VType

@[simp] theorem NumberKind.exact_value (k : NumberKind) : k.value.Exact := by
  cases k <;> simp [NumberKind.value]

@[simp] theorem WholeKind.exact_value (k : WholeKind) : k.value.Exact := by
  cases k <;> simp [WholeKind.value]

@[simp] theorem ElementKind.exact_value (k : ElementKind) : k.value.Exact := by
  cases k <;> simp [ElementKind.value]

@[simp] theorem Conversion.exact_source (c : Conversion) : c.source.Exact := by
  cases c <;> simp [Conversion.source]

@[simp] theorem BaseType.exact_value (t : BaseType) : (VType.ofField (.base t)).Exact := by
  cases t <;> simp [VType.ofField]

namespace Action

/-- A field takes a number as it is, and a reference of whatever type. -/
theorem strict_takeField (t : FieldType) : (takeField t).Strict := by
  cases t with
  | base t => exact t.exact_value
  | ref t => trivial

theorem strict_takeArguments (d : MethodDescriptor) : ∀ a ∈ takeArguments d, a.Strict := by
  intro a ha
  obtain ⟨t, _, rfl⟩ := List.mem_map.mp ha
  exact strict_takeField t

theorem strict_pushResult (d : MethodDescriptor) : ∀ a ∈ pushResult d, a.Strict := by
  unfold pushResult
  split <;> simp [Strict]

/-- A receiver is not asked for exactly. -/
theorem strict_takeReceiver (this : ClassName) (kind : InvokeKind) (m : MethodRef) :
    ∀ a ∈ takeReceiver this kind m, a.Strict := by
  unfold takeReceiver
  split
  · simp [Strict]
  · split <;> simp [Strict, Check.Strict]

theorem strict_expectResult (result : Option FieldType) (accepted : Bool) :
    ∀ a ∈ expectResult result accepted, a.Strict := by
  unfold expectResult
  split <;> simp [Strict]

end Action

/-- No instruction asks for an exact object. -/
theorem Instruction.strict_actions (this : ClassName) (site : Option Label) (i : Instruction) :
    ∀ a ∈ i.actions this site, a.Strict := by
  cases i with
  | load kind slot => cases kind <;> simp [actions, Action.Strict]
  | store kind slot =>
    cases kind <;> simp [actions, Action.takeExactly, Action.Strict, Check.Strict]
  | arrayLoad kind =>
    cases kind <;> simp [actions, Action.takeExactly, Action.Strict, Check.Strict]
  | arrayStore kind =>
    cases kind <;> simp [actions, Action.takeExactly, Action.Strict, Check.Strict]
  | putStatic f => simpa [actions] using Action.strict_takeField f.descriptor
  | putField f =>
    simpa [actions, Action.Strict, Check.Strict] using Action.strict_takeField f.descriptor
  | invoke kind m =>
    intro a ha
    -- arguments, receiver and result
    rcases List.mem_append.mp ha with ha | ha
    · rcases List.mem_append.mp ha with ha | ha
      · exact Action.strict_takeArguments _ a ha
      · exact Action.strict_takeReceiver _ _ _ a ha
    · exact Action.strict_pushResult _ a ha
  | invokeDynamic d =>
    intro a ha
    rcases List.mem_append.mp ha with ha | ha
    · exact Action.strict_takeArguments _ a ha
    · exact Action.strict_pushResult _ a ha
  | new c => cases site <;> simp [actions, Action.Strict]
  | newMultiArray t n =>
    intro a ha
    rcases List.mem_append.mp ha with ha | ha
    · rw [List.eq_of_mem_replicate ha]
      exact VType.exact_integer
    · rw [List.mem_singleton.mp ha]
      trivial
  | _ => simp [actions, Action.takeExactly, Action.Strict, Check.Strict]

/-- No branch asks for an exact object. -/
theorem Branch.strict_actions (result : Option FieldType) (b : Branch) :
    ∀ a ∈ b.actions result, a.Strict := by
  cases b with
  | returnValue kind =>
    intro a ha
    -- a number is asked for exactly, a reference only as one
    cases kind with
    | number k =>
      rcases List.mem_cons.mp ha with rfl | ha
      · exact k.exact_value
      · exact Action.strict_expectResult _ _ a ha
    | reference =>
      rcases List.mem_cons.mp ha with rfl | ha
      · trivial
      · exact Action.strict_expectResult _ _ a ha
  | returnVoid => exact Action.strict_expectResult _ _
  | _ => simp [actions, Action.takeExactly, Action.Strict, Check.Strict]

namespace Frame

variable {f f' g g' : Frame}

/-- An instruction that executes on a frame executes on every frame assignable to it. -/
theorem execute_mono (hlaw : Oracle.Lawful oracle) (hfg : f.Follows oracle limit g)
    {this : ClassName} {site : Option Label} {i : Instruction}
    (h : g.execute this site i = .ok g') :
    ∃ f', f.execute this site i = .ok f' ∧ f'.Follows oracle limit g' :=
  perform_mono hlaw (i.strict_actions this site) hfg h

/-- A branch that executes on a frame executes on every frame assignable to it. -/
theorem executeBranch_mono (hlaw : Oracle.Lawful oracle) (hfg : f.Follows oracle limit g)
    {result : Option FieldType} {b : Branch} (h : g.executeBranch result b = .ok g') :
    ∃ f', f.executeBranch result b = .ok f' ∧ f'.Follows oracle limit g' :=
  perform_mono hlaw (b.strict_actions result) hfg h

/-- The same for two executions that have both succeeded. -/
theorem Follows.execute (hlaw : Oracle.Lawful oracle) (hfg : f.Follows oracle limit g)
    {this : ClassName} {site : Option Label} {i : Instruction}
    (hf : f.execute this site i = .ok f') (hg : g.execute this site i = .ok g') :
    f'.Follows oracle limit g' := by
  obtain ⟨f'', hf'', hfollows⟩ := execute_mono hlaw hfg hg
  rw [hf] at hf''
  cases hf''
  exact hfollows

/-- Two executions of a branch on frames in order leave frames in order. -/
theorem Follows.executeBranch (hlaw : Oracle.Lawful oracle) (hfg : f.Follows oracle limit g)
    {result : Option FieldType} {b : Branch} (hf : f.executeBranch result b = .ok f')
    (hg : g.executeBranch result b = .ok g') : f'.Follows oracle limit g' := by
  obtain ⟨f'', hf'', hfollows⟩ := executeBranch_mono hlaw hfg hg
  rw [hf] at hf''
  cases hf''
  exact hfollows

/-- With types ordered by a hierarchy, executing is monotone: what executes on a frame executes on
every frame below it, and the results are below each other again. -/
theorem execution_is_monotone {h : Hierarchy} (hrooted : h.Rooted) (hfg : f.Assignable h.common g) :
    (∀ this site i g', g.execute this site i = .ok g' →
        ∃ f', f.execute this site i = .ok f' ∧ f'.Assignable h.common g')
      ∧ ∀ result b g', g.executeBranch result b = .ok g' →
        ∃ f', f.executeBranch result b = .ok f' ∧ f'.Assignable h.common g' := by
  have hfollows : f.Follows h.common f.locals.words g := ⟨hfg, Nat.le_max_left ..⟩
  constructor
  · intro this site i g' hg
    obtain ⟨f', hf, hbelow⟩ := execute_mono hrooted.lawful hfollows hg
    exact ⟨f', hf, hbelow.below⟩
  · intro result b g' hg
    obtain ⟨f', hf, hbelow⟩ := executeBranch_mono hrooted.lawful hfollows hg
    exact ⟨f', hf, hbelow.below⟩

/-- An element of an array of strings is loaded where one of an array of objects is expected, beside
locals that agree in one word only. -/
theorem execution_is_monotone_strings :
    ∃ f g g' : Frame, f = .ofValues [.long, .null] [.object (.objectArray 0 .string), .integer]
      ∧ g = .ofValues [.top, .top, .object .string] [.object (.objectArray 0 .object), .integer]
      ∧ Hierarchy.javaLang.Rooted ∧ f.Assignable Hierarchy.javaLang.common g
      ∧ g.execute .object none (.arrayLoad .reference) = .ok g'
      ∧ ∃ f', f.execute .object none (.arrayLoad .reference) = .ok f'
        ∧ f'.Assignable Hierarchy.javaLang.common g' := by
  have hrooted := Hierarchy.wellFormed_javaLang.rooted
  have hfg : (Frame.ofValues [.long, .null] [.object (.objectArray 0 .string), .integer]).Assignable
      Hierarchy.javaLang.common
      (.ofValues [.top, .top, .object .string] [.object (.objectArray 0 .object), .integer]) := by
    decide
  exact ⟨_, _, _, rfl, rfl, hrooted, hfg, rfl, (execution_is_monotone hrooted hfg).1 _ _ _ _ rfl⟩

end Frame

end JvmFrames
