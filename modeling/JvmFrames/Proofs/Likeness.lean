import Mathlib.Data.List.Forall2
import JvmFrames.Frame.Effect

/-!
# Actions on frames that are alike

Three facts about execution are of one kind: renaming allocation sites makes no difference to it,
nor does what a snapshot leaves out of a frame, and no failure is for want of a site. Each of them
says that two frames which are alike in some sense stay alike under whatever is done to both, and
that the causes are alike if it fails.

A `Likeness` says what is alike: values, causes of failure and frames. Its laws are about single
values and single operations on locals. From these the walk through all actions is made here once
(`Likeness.agree_perform`): popping, checked and unchecked, then the shuffles, the actions one by
one, and lists of them. The actions on the two sides need not be the same either, as long as they
name values that are alike (`Action.Like`).
-/

namespace JvmFrames

/-! ## Outcomes

An operation on frames may fail. Then its errors are compared, and nothing else can be. -/

/-- Two computations end alike: both fail, and the errors are related, or both give a value, and the
values are related. -/
def AgreeUpTo {ε ε' α β : Type} (E : ε → ε' → Prop) (R : α → β → Prop) :
    Except ε α → Except ε' β → Prop
  | .ok a, .ok b => R a b
  | .error e, .error e' => E e e'
  | _, _ => False

/-- Two computations end alike, whatever the errors are. -/
abbrev Agree {ε ε' α β : Type} (R : α → β → Prop) : Except ε α → Except ε' β → Prop :=
  AgreeUpTo (fun _ _ => True) R

namespace AgreeUpTo

variable {ε ε' α α' β β' : Type} {E F : ε → ε' → Prop} {R : α → β → Prop} {S : α' → β' → Prop}
variable {x : Except ε α} {y : Except ε' β}

/-- Two computations that end alike both fail or both succeed. -/
theorem cases (h : AgreeUpTo E R x y) :
    (∃ e e', x = .error e ∧ y = .error e' ∧ E e e') ∨ ∃ a b, x = .ok a ∧ y = .ok b ∧ R a b := by
  cases x with
  | error e =>
    cases y with
    | error e' => exact Or.inl ⟨e, e', rfl, rfl, h⟩
    | ok b => exact h.elim
  | ok a =>
    cases y with
    | error e' => exact h.elim
    | ok b => exact Or.inr ⟨a, b, rfl, rfl, h⟩

/-- What is related may be related less closely. -/
theorem imp {T : α → β → Prop} (h : AgreeUpTo E R x y) (herror : ∀ e e', E e e' → F e e')
    (hvalue : ∀ a b, R a b → T a b) : AgreeUpTo F T x y := by
  obtain ⟨e, e', rfl, rfl, he⟩ | ⟨a, b, rfl, rfl, hab⟩ := h.cases
  · exact herror e e' he
  · exact hvalue a b hab

/-- What follows two computations that end alike ends alike, if it does so for related values. -/
theorem bind {k : α → Except ε α'} {k' : β → Except ε' β'} (h : AgreeUpTo E R x y)
    (hk : ∀ a b, R a b → AgreeUpTo E S (k a) (k' b)) : AgreeUpTo E S (x >>= k) (y >>= k') := by
  obtain ⟨e, e', rfl, rfl, he⟩ | ⟨a, b, rfl, rfl, hab⟩ := h.cases
  · exact he
  · exact hk a b hab

end AgreeUpTo

/-! ## Actions that name values alike

An action may name a value: the one that a check asks for, that is pushed or that is stored. The two
sides perform the same actions up to these values. -/

/-- The same check, up to the value that it may ask for. -/
inductive Check.Like (value : VType → VType → Prop) : Check → Check → Prop where
  | exactly (v w : VType) (h : value v w) : Like value (.exactly v) (.exactly w)
  | same (check : Check) (h : ∀ v, check ≠ .exactly v) : Like value check check

/-- The same action, up to the value that it may name and the cause it may fail for. -/
inductive Action.Like (value : VType → VType → Prop) (cause : FrameError → FrameError → Prop) :
    Action → Action → Prop where
  | take (check check' : Check) (h : check.Like value check') :
      Like value cause (.take check) (.take check')
  | push (v w : VType) (h : value v w) : Like value cause (.push v) (.push w)
  | element : Like value cause .element .element
  | takeTwoReferences : Like value cause .takeTwoReferences .takeTwoReferences
  | expectLocal (slot : UInt16) (v w : VType) (h : value v w) :
      Like value cause (.expectLocal slot v) (.expectLocal slot w)
  | loadReference (slot : UInt16) : Like value cause (.loadReference slot) (.loadReference slot)
  | storeLocal (slot : UInt16) (v w : VType) (h : value v w) :
      Like value cause (.storeLocal slot v) (.storeLocal slot w)
  | storeReference (slot : UInt16) : Like value cause (.storeReference slot) (.storeReference slot)
  | shuffle (how : Shuffle) : Like value cause (.shuffle how) (.shuffle how)
  | construct (this : ClassName) : Like value cause (.construct this) (.construct this)
  | raise : Like value cause .raise .raise
  | fail (e e' : FrameError) (h : cause e e') : Like value cause (.fail e) (.fail e')

/-- Where values are like themselves, so are actions, but for those that fail on their own. -/
theorem Action.Like.refl {value : VType → VType → Prop} {cause : FrameError → FrameError → Prop}
    (hvalue : ∀ v, value v v) (a : Action) (hcause : ∀ e, a = .fail e → cause e e) :
    a.Like value cause a := by
  cases a with
  | take check =>
    refine .take _ _ ?_
    -- a check for one exact value names it; all others name nothing
    cases check with
    | exactly v => exact .exactly v v (hvalue v)
    | _ => exact .same _ nofun
  | push v => exact .push v v (hvalue v)
  | element => exact .element
  | takeTwoReferences => exact .takeTwoReferences
  | expectLocal slot v => exact .expectLocal slot v v (hvalue v)
  | loadReference slot => exact .loadReference slot
  | storeLocal slot v => exact .storeLocal slot v v (hvalue v)
  | storeReference slot => exact .storeReference slot
  | shuffle how => exact .shuffle how
  | construct this => exact .construct this
  | raise => exact .raise
  | fail e => exact .fail e e (hcause e rfl)

/-- Values, causes of failure and frames that are alike. Frames that are alike have stacks of values
that are, and whatever is read from their locals is alike and leads to what is alike. -/
structure Likeness where
  value : VType → VType → Prop
  cause : FrameError → FrameError → Prop
  frame : Frame → Frame → Prop
  width_eq : ∀ {v w : VType}, value v w → width v = width w
  element : ∀ {v w : VType}, value v w → value v.elementOf w.elementOf
  /-- A check that fails on one side fails on the other. -/
  error? : ∀ {check check' : Check} {v w}, check.Like value check' → value v w →
    Option.Rel cause (check.error? v) (check'.error? w)
  underflow : cause .stackUnderflow .stackUnderflow
  splitsWide : cause (.splitsWide 2) (.splitsWide 2)
  stack : ∀ {f g : Frame}, frame f g → List.Forall₂ value f.stack g.stack
  withStack : ∀ {f g : Frame} {s t}, frame f g → List.Forall₂ value s t →
    frame { f with stack := s } { g with stack := t }
  load : ∀ {f g : Frame}, frame f g → ∀ slot, AgreeUpTo cause value (f.load slot) (g.load slot)
  store : ∀ {f g : Frame} {v w}, frame f g → ∀ slot, value v w → frame (f.store slot v) (g.store slot w)
  construct : ∀ {f g : Frame} {v w}, frame f g → value v w → ∀ this,
    frame (f.construct v this) (g.construct w this)

namespace Likeness

variable (L : Likeness) {f g : Frame}

/-- Failures alike in cause, which leave frames behind that are alike. -/
def fault (x y : Fault FrameError Frame) : Prop := L.cause x.cause y.cause ∧ L.frame x.left y.left

/-- Something taken off a frame on either side, with frames left that are alike. -/
def Taken {α β : Type} (R : α → β → Prop) (x : α × Frame) (y : β × Frame) : Prop :=
  R x.1 y.1 ∧ L.frame x.2 y.2

/-! ## The stack

What is taken is alike, so the checks on it and its widths come out alike. -/

/-- What is popped is alike. If nothing can be popped, it is so on both sides. -/
theorem agree_pop (h : L.frame f g) : AgreeUpTo L.fault (L.Taken L.value) f.pop g.pop := by
  have hstack := L.stack h
  unfold Frame.pop
  revert hstack
  generalize f.stack = s, g.stack = t
  intro hstack
  cases hstack with
  | nil => exact ⟨L.underflow, h⟩
  | cons hvalue hrest => exact ⟨hvalue, L.withStack h hrest⟩

/-- A value has to pass a check on both sides, which it does on both or on neither. -/
theorem agree_take (h : L.frame f g) {check check' : Check} (hcheck : check.Like L.value check') :
    AgreeUpTo L.fault (L.Taken L.value) (f.take check) (g.take check') := by
  refine (L.agree_pop h).bind fun (v, f) (w, g) ⟨hvalue, hfg⟩ => ?_
  have herror := L.error? hcheck hvalue
  dsimp only at herror ⊢
  revert herror
  generalize check.error? v = e, check'.error? w = e'
  intro herror
  cases herror with
  | none => exact ⟨hvalue, hfg⟩
  | some hcause => exact ⟨hcause, hfg⟩

/-- For checks that ask for no particular value. -/
theorem agree_take_same (h : L.frame f g) (check : Check) (hplain : ∀ v, check ≠ .exactly v) :
    AgreeUpTo L.fault (L.Taken L.value) (f.take check) (g.take check) :=
  L.agree_take h (.same check hplain)

/-- Whether one or two values make up two words depends on widths, and these are the same. -/
theorem agree_takeTwoWords (h : L.frame f g) :
    AgreeUpTo L.fault (L.Taken (List.Forall₂ L.value)) f.takeTwoWords g.takeTwoWords := by
  refine (L.agree_pop h).bind fun (v, f) (w, g) ⟨hfirst, hfg⟩ => ?_
  dsimp only at hfirst ⊢
  rw [L.width_eq hfirst]
  split
  · refine (L.agree_pop hfg).bind fun (v', f) (w', g) ⟨hsecond, hfg⟩ => ?_
    dsimp only at hsecond ⊢
    rw [L.width_eq hsecond]
    split
    · exact ⟨.cons hfirst (.cons hsecond .nil), hfg⟩
    · exact ⟨L.splitsWide, hfg⟩
  · exact ⟨.cons hfirst .nil, hfg⟩

/-- Pushing values that are alike keeps frames alike. -/
theorem pushAll (h : L.frame f g) {values values' : List VType}
    (hvalues : List.Forall₂ L.value values values') :
    L.frame (f.pushAll values) (g.pushAll values') :=
  L.withStack h (List.rel_append hvalues (L.stack h))

/-- Pushing a value that is alike on both sides keeps frames alike. -/
theorem push (h : L.frame f g) {v w : VType} (hvalue : L.value v w) :
    L.frame (f.push v) (g.push w) :=
  L.pushAll h (.cons hvalue .nil)

/-- A shuffle takes values and pushes them again in some order, some of them twice. -/
theorem agree_shuffle (h : L.frame f g) (how : Shuffle) :
    AgreeUpTo L.fault L.frame (how.apply f) (how.apply g) := by
  -- values are taken from the top down, and pushed back with the lowest first
  have hone : ∀ {f g : Frame}, L.frame f g →
      AgreeUpTo L.fault (L.Taken L.value) (f.take .narrow) (g.take .narrow) :=
    fun h => L.agree_take_same h .narrow nofun
  cases how with
  | pop => exact (hone h).bind fun _ _ ⟨_, hfg⟩ => hfg
  | pop2 => exact (L.agree_takeTwoWords h).bind fun _ _ ⟨_, hfg⟩ => hfg
  | dup => exact (hone h).bind fun _ _ ⟨ha, hfg⟩ => L.pushAll hfg (.cons ha (.cons ha .nil))
  | dupX1 =>
    refine (hone h).bind fun _ _ ⟨ha, hfg⟩ => (hone hfg).bind fun _ _ ⟨hb, hfg⟩ => ?_
    exact L.pushAll hfg (.cons ha (.cons hb (.cons ha .nil)))
  | dupX2 =>
    refine (hone h).bind fun _ _ ⟨ha, hfg⟩ => ?_
    refine (L.agree_takeTwoWords hfg).bind fun _ _ ⟨hunder, hfg⟩ => ?_
    exact L.pushAll hfg (.cons ha (List.rel_append hunder (.cons ha .nil)))
  | dup2 =>
    refine (L.agree_takeTwoWords h).bind fun _ _ ⟨htop, hfg⟩ => ?_
    exact L.pushAll hfg (List.rel_append htop htop)
  | dup2X1 =>
    refine (L.agree_takeTwoWords h).bind fun _ _ ⟨htop, hfg⟩ => ?_
    refine (hone hfg).bind fun _ _ ⟨hb, hfg⟩ => ?_
    exact L.pushAll hfg (List.rel_append (List.rel_append htop (.cons hb .nil)) htop)
  | dup2X2 =>
    refine (L.agree_takeTwoWords h).bind fun _ _ ⟨htop, hfg⟩ => ?_
    refine (L.agree_takeTwoWords hfg).bind fun _ _ ⟨hunder, hfg⟩ => ?_
    exact L.pushAll hfg (List.rel_append (List.rel_append htop hunder) htop)
  | swap =>
    refine (hone h).bind fun _ _ ⟨ha, hfg⟩ => (hone hfg).bind fun _ _ ⟨hb, hfg⟩ => ?_
    exact L.pushAll hfg (.cons hb (.cons ha .nil))

/-! ## Actions

Actions that load from the locals have no value to take first, so their failures leave the frame as
it was. -/

/-- A local that has to pass a check, and what follows if it does. -/
theorem agree_checkLocal (h : L.frame f g) (slot : UInt16) {check check' : Check}
    (hcheck : check.Like L.value check') {k k' : VType → Frame}
    (hk : ∀ v w, L.value v w → L.frame (k v) (k' w)) :
    AgreeUpTo L.fault L.frame
      (match f.load slot with
        | .error e => throw ⟨e, f⟩
        | .ok v => match check.error? v with
          | some e => throw ⟨e, f⟩
          | none => return k v)
      (match g.load slot with
        | .error e => throw ⟨e, g⟩
        | .ok w => match check'.error? w with
          | some e => throw ⟨e, g⟩
          | none => return k' w) := by
  obtain ⟨e, e', hf, hg, hcause⟩ | ⟨v, w, hf, hg, hvalue⟩ := (L.load h slot).cases
  · rw [hf, hg]
    exact ⟨hcause, h⟩
  · rw [hf, hg]
    have herror := L.error? hcheck hvalue
    dsimp only
    revert herror
    -- both checks pass or both fail, with causes that are alike
    generalize check.error? v = e, check'.error? w = e'
    intro herror
    cases herror with
    | none => exact hk v w hvalue
    | some hcause => exact ⟨hcause, h⟩

/-- Two references are taken before either is checked, so both are gone if one fails its check. -/
theorem agree_takeTwoReferences (h : L.frame f g) :
    AgreeUpTo L.fault L.frame (Action.takeTwoReferences.apply f) (Action.takeTwoReferences.apply g) := by
  refine (L.agree_pop h).bind fun (v, f) (w, g) ⟨hfirst, hfg⟩ => ?_
  refine (L.agree_pop hfg).bind fun (v', f) (w', g) ⟨hsecond, hfg⟩ => ?_
  have herror := L.error? (.same .reference nofun) hfirst
  have herror' := L.error? (.same .reference nofun) hsecond
  dsimp only at herror herror' ⊢
  revert herror herror'
  generalize Check.reference.error? v = e, Check.reference.error? w = d,
    Check.reference.error? v' = e', Check.reference.error? w' = d'
  intro herror herror'
  -- the value that was on top is checked first
  cases herror with
  | some hcause => exact ⟨hcause, hfg⟩
  | none =>
    cases herror' with
    | some hcause => exact ⟨hcause, hfg⟩
    | none => exact hfg

/-- One action does what is alike to frames that are. -/
theorem agree_apply (h : L.frame f g) {a a' : Action} (ha : a.Like L.value L.cause a') :
    AgreeUpTo L.fault L.frame (a.apply f) (a'.apply g) := by
  cases ha with
  | take check check' hcheck => exact (L.agree_take h hcheck).bind fun _ _ ⟨_, hfg⟩ => hfg
  | push v w hvalue => exact L.push h hvalue
  -- these take one value, under the same check on both sides, and put back what is alike
  | element =>
    exact (L.agree_take_same h .referenceArray nofun).bind fun _ _ ⟨hvalue, hfg⟩ =>
      L.push hfg (L.element hvalue)
  | takeTwoReferences => exact L.agree_takeTwoReferences h
  | expectLocal slot v w hvalue =>
    exact L.agree_checkLocal h slot (.exactly v w hvalue) fun _ _ _ => h
  | loadReference slot =>
    exact L.agree_checkLocal h slot (.same .reference nofun) fun _ _ hvalue => L.push h hvalue
  | storeLocal slot v w hvalue => exact L.store h slot hvalue
  | storeReference slot =>
    exact (L.agree_take_same h .reference nofun).bind fun _ _ ⟨hvalue, hfg⟩ => L.store hfg slot hvalue
  | shuffle how => exact L.agree_shuffle h how
  | construct this =>
    exact (L.agree_take_same h .uninitialized nofun).bind fun _ _ ⟨hvalue, hfg⟩ =>
      L.construct hfg hvalue this
  | raise =>
    exact (L.agree_take_same h .initialized nofun).bind fun _ _ ⟨hvalue, hfg⟩ =>
      L.push (L.withStack hfg .nil) hvalue
  | fail e e' hcause => exact ⟨hcause, h⟩

/-- So do any actions in a row. The induction is on the actions, with the frames left open. -/
theorem agree_perform (h : L.frame f g) {actions actions' : List Action}
    (hactions : List.Forall₂ (Action.Like L.value L.cause) actions actions') :
    AgreeUpTo L.fault L.frame (f.perform actions) (g.perform actions') := by
  induction hactions generalizing f g with
  | nil => exact h
  | cons ha _ ih =>
    rw [Frame.perform, Frame.perform]
    obtain ⟨e, e', hf, hg, hfault⟩ | ⟨f₁, g₁, hf, hg, hfg⟩ := (L.agree_apply h ha).cases
    · rw [hf, hg]
      exact hfault
    · rw [hf, hg]
      exact ih hfg

end Likeness

/-! ## Values that are the same

Two of the three facts are about frames with the very same values on their stacks. Then only frames
and causes are left to say. No check and no load fails for want of an allocation site, so that cause
may be left out of account. -/

/-- Where only equal values are alike, so are only equal checks. -/
theorem Check.Like.eq {check check' : Check} (h : check.Like Eq check') : check = check' := by
  cases h with
  | exactly v w hvalue => rw [hvalue]
  | same => rfl

/-- What is wrong with a value that is no array is about the value. -/
theorem FrameError.ofNonArray_ne (v : VType) : FrameError.ofNonArray v ≠ .noAllocationSite := by
  unfold FrameError.ofNonArray
  split <;> nofun

/-- No check asks for an allocation site. -/
theorem Check.error?_ne (check : Check) (v : VType) : check.error? v ≠ some .noAllocationSite := by
  fun_cases Check.error? check v
  all_goals first | exact fun h => FrameError.ofNonArray_ne _ (Option.some.inj h) | nofun

/-- No load asks for an allocation site. -/
theorem Frame.load_ne (f : Frame) (slot : UInt16) : f.load slot ≠ .error .noAllocationSite := by
  unfold load
  split <;> nofun

/-- A likeness of frames with the same stack that load the same. Causes are like themselves, if they
are possible, which all are that an operation may fail for of its own accord. -/
def Likeness.ofEq (possible : FrameError → Prop)
    (hpossible : ∀ e, e ≠ .noAllocationSite → possible e) (frame : Frame → Frame → Prop)
    (hstack : ∀ f g, frame f g → f.stack = g.stack)
    (hwith : ∀ f g, frame f g → ∀ stack, frame { f with stack } { g with stack })
    (hload : ∀ f g, frame f g → ∀ slot, f.load slot = g.load slot)
    (hstore : ∀ f g, frame f g → ∀ slot v, frame (f.store slot v) (g.store slot v))
    (hconstruct : ∀ f g, frame f g → ∀ v this, frame (f.construct v this) (g.construct v this)) :
    Likeness where
  value := Eq
  cause e e' := e = e' ∧ possible e
  frame := frame
  width_eq := by
    rintro v _ rfl
    rfl
  element := by
    rintro v _ rfl
    rfl
  error? := by
    rintro check check' v _ hcheck rfl
    rw [← hcheck.eq]
    cases herror : check.error? v with
    | none => exact .none
    -- no check fails for want of a site, so its cause is a possible one
    | some e => exact .some ⟨rfl, hpossible e fun h => check.error?_ne v (by rw [herror, h])⟩
  underflow := ⟨rfl, hpossible _ nofun⟩
  splitsWide := ⟨rfl, hpossible _ nofun⟩
  stack := by
    intro f g h
    rw [hstack f g h]
    exact List.forall₂_same.mpr fun _ _ => rfl
  withStack := by
    intro f g s t h hvalues
    rw [List.forall₂_eq_eq_eq] at hvalues
    rw [hvalues]
    exact hwith f g h t
  load := by
    intro f g h slot
    rw [hload f g h]
    cases hslot : g.load slot with
    | ok v => exact rfl
    | error e => exact ⟨rfl, hpossible e fun heq => g.load_ne slot (by rw [hslot, heq])⟩
  store := by
    rintro f g v _ h slot rfl
    exact hstore f g h slot v
  construct := by
    rintro f g v _ h rfl this
    exact hconstruct f g h v this

end JvmFrames
