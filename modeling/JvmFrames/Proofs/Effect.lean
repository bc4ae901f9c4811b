import JvmFrames.Frame.Effect
import JvmFrames.Proofs.Words

/-!
# What each action does

`Action.Acts` lists, action by action, when an action succeeds and what it leaves. `Action.apply`
does exactly that (`Action.acts_of_apply`, `Action.apply_of_acts`), so what all executions keep is
proved by cases on `Acts` and lifted to lists of actions by `Frame.perform_induction`.
-/

namespace JvmFrames

namespace Frame

variable {f f' : Frame} {check : Check} {v : VType} {vs : List VType}

/-- An outcome of two operations in a row comes from an outcome of each. -/
theorem bind_eq_ok_iff {α β : Type} {x : Outcome α} {k : α → Outcome β} {b : β} :
    (x >>= k) = .ok b ↔ ∃ a, x = .ok a ∧ k a = .ok b := by
  cases x with
  | error fault => simp [bind, Except.bind]
  | ok a => simp [bind, Except.bind]

/-- Popping takes the value on top and leaves everything else as it is. -/
theorem pop_eq_ok_iff :
    f.pop = .ok (v, f') ↔ ∃ rest, f.stack = v :: rest ∧ f' = { f with stack := rest } := by
  unfold pop
  cases hstack : f.stack with
  | nil => simp
  | cons w rest =>
    simp only [Except.ok.injEq, Prod.mk.injEq, List.cons.injEq]
    constructor
    · rintro ⟨rfl, rfl⟩
      exact ⟨rest, ⟨rfl, rfl⟩, rfl⟩
    · rintro ⟨_, ⟨rfl, rfl⟩, rfl⟩
      exact ⟨rfl, rfl⟩

/-- Taking is popping with a check. -/
theorem take_eq_ok_iff :
    f.take check = .ok (v, f') ↔ ∃ rest, f.stack = v :: rest ∧ check.error? v = none
      ∧ f' = { f with stack := rest } := by
  unfold take
  rw [bind_eq_ok_iff]
  constructor
  · rintro ⟨⟨w, g⟩, hpop, hcheck⟩
    obtain ⟨rest, hstack, rfl⟩ := pop_eq_ok_iff.mp hpop
    -- the check comes after the pop and leaves the frame alone
    cases herror : check.error? w with
    | none =>
      simp only [herror] at hcheck
      cases hcheck
      exact ⟨rest, hstack, herror, rfl⟩
    | some e =>
      simp only [herror] at hcheck
      cases hcheck
  · rintro ⟨rest, hstack, herror, rfl⟩
    refine ⟨(v, { f with stack := rest }), pop_eq_ok_iff.mpr ⟨rest, hstack, rfl⟩, ?_⟩
    simp only [herror]
    rfl

end Frame

/-- One wide value or two narrow ones. -/
inductive TwoWords : List VType → Prop where
  | wide (a : VType) (ha : width a ≠ 1) : TwoWords [a]
  | narrow (a b : VType) (ha : width a = 1) (hb : width b = 1) : TwoWords [a, b]

/-- What is taken as two words is one wide value or two narrow ones. -/
theorem Frame.takeTwoWords_eq_ok_iff {f f' : Frame} {vs : List VType} :
    f.takeTwoWords = .ok (vs, f') ↔ ∃ rest, f.stack = vs ++ rest ∧ TwoWords vs
      ∧ f' = { f with stack := rest } := by
  unfold takeTwoWords
  rw [bind_eq_ok_iff]
  constructor
  · rintro ⟨⟨a, g⟩, hpop, hrest⟩
    obtain ⟨rest, hstack, rfl⟩ := pop_eq_ok_iff.mp hpop
    -- a wide value is all there is to take; behind a narrow one there has to be another
    by_cases ha : width a = 1
    · simp only [if_pos ha] at hrest
      rw [bind_eq_ok_iff] at hrest
      obtain ⟨⟨b, g⟩, hpop', hrest⟩ := hrest
      obtain ⟨rest', hstack', rfl⟩ := pop_eq_ok_iff.mp hpop'
      by_cases hb : width b = 1
      · simp only [if_pos hb] at hrest
        cases hrest
        refine ⟨rest', ?_, .narrow a b ha hb, rfl⟩
        rw [hstack, show rest = b :: rest' from hstack']
        rfl
      · simp only [if_neg hb] at hrest
        cases hrest
    · simp only [if_neg ha] at hrest
      cases hrest
      exact ⟨rest, hstack, .wide a ha, rfl⟩
  · rintro ⟨rest, hstack, htwo, rfl⟩
    cases htwo with
    | wide a ha =>
      refine ⟨(a, { f with stack := rest }), pop_eq_ok_iff.mpr ⟨rest, hstack, rfl⟩, ?_⟩
      simp only [if_neg ha]
      rfl
    | narrow a b ha hb =>
      refine ⟨(a, { f with stack := b :: rest }), pop_eq_ok_iff.mpr ⟨b :: rest, hstack, rfl⟩, ?_⟩
      simp only [if_pos ha, pop, bind, Except.bind, if_pos hb]
      rfl

/-! ## Shuffles

A shuffle looks at the widths of what it moves and at nothing else about it. Each kind is a line of
`Rearranges`, which is what later proofs use. -/

/-- A shuffle replaces some values on top of the stack by some arrangement of them. -/
inductive Shuffle.Rearranges : Shuffle → List VType → List VType → Prop where
  | pop (a : VType) (ha : width a = 1) : Rearranges .pop [a] []
  | pop2 (g : List VType) (hg : TwoWords g) : Rearranges .pop2 g []
  | dup (a : VType) (ha : width a = 1) : Rearranges .dup [a] [a, a]
  | dupX1 (a b : VType) (ha : width a = 1) (hb : width b = 1) : Rearranges .dupX1 [a, b] [a, b, a]
  | dupX2 (a : VType) (u : List VType) (ha : width a = 1) (hu : TwoWords u) :
      Rearranges .dupX2 ([a] ++ u) ([a] ++ u ++ [a])
  | dup2 (g : List VType) (hg : TwoWords g) : Rearranges .dup2 g (g ++ g)
  | dup2X1 (g : List VType) (b : VType) (hg : TwoWords g) (hb : width b = 1) :
      Rearranges .dup2X1 (g ++ [b]) (g ++ [b] ++ g)
  | dup2X2 (g u : List VType) (hg : TwoWords g) (hu : TwoWords u) :
      Rearranges .dup2X2 (g ++ u) (g ++ u ++ g)
  | swap (a b : VType) (ha : width a = 1) (hb : width b = 1) : Rearranges .swap [a, b] [b, a]

theorem Check.narrow_error? {v : VType} : Check.narrow.error? v = none ↔ width v = 1 := by
  simp [Check.error?]

namespace Shuffle

variable {f f' : Frame} {how : Shuffle}

/-- A shuffle that succeeds has rearranged what was on top. -/
theorem rearranges_of_apply (h : how.apply f = .ok f') :
    ∃ taken given rest, f.stack = taken ++ rest ∧ how.Rearranges taken given
      ∧ f' = { f with stack := given ++ rest } := by
  cases how <;>
    simp only [Shuffle.apply, Frame.bind_eq_ok_iff, Prod.exists, Frame.take_eq_ok_iff,
      Frame.takeTwoWords_eq_ok_iff, Check.narrow_error?] at h
  case pop =>
    obtain ⟨a, g, ⟨rest, hstack, ha, rfl⟩, heq⟩ := h
    cases heq
    exact ⟨_, _, rest, hstack, .pop a ha, rfl⟩
  case pop2 =>
    obtain ⟨g, _, ⟨rest, hstack, hg, rfl⟩, heq⟩ := h
    cases heq
    exact ⟨_, _, rest, hstack, .pop2 g hg, rfl⟩
  case dup =>
    obtain ⟨a, g, ⟨rest, hstack, ha, rfl⟩, heq⟩ := h
    cases heq
    exact ⟨_, _, rest, hstack, .dup a ha, rfl⟩
  case dup2 =>
    obtain ⟨g, _, ⟨rest, hstack, hg, rfl⟩, heq⟩ := h
    cases heq
    exact ⟨_, _, rest, hstack, .dup2 g hg, rfl⟩
  -- the others take twice, the second time from what the first has left
  case dupX1 =>
    obtain ⟨a, g, ⟨rest, hstack, ha, rfl⟩, b, g', ⟨rest', hstack', hb, rfl⟩, heq⟩ := h
    cases heq
    have hrest : rest = [b] ++ rest' := hstack'
    exact ⟨_, _, rest', by rw [hstack, hrest]; rfl, .dupX1 a b ha hb, rfl⟩
  case dupX2 =>
    obtain ⟨a, g, ⟨rest, hstack, ha, rfl⟩, u, g', ⟨rest', hstack', hu, rfl⟩, heq⟩ := h
    cases heq
    have hrest : rest = u ++ rest' := hstack'
    exact ⟨_, _, rest', by rw [hstack, hrest]; rfl, .dupX2 a u ha hu, rfl⟩
  case dup2X1 =>
    obtain ⟨g, _, ⟨rest, hstack, hg, rfl⟩, b, g', ⟨rest', hstack', hb, rfl⟩, heq⟩ := h
    cases heq
    have hrest : rest = [b] ++ rest' := hstack'
    exact ⟨_, _, rest', by rw [hstack, hrest, List.append_assoc], .dup2X1 g b hg hb, rfl⟩
  case dup2X2 =>
    obtain ⟨g, _, ⟨rest, hstack, hg, rfl⟩, u, g', ⟨rest', hstack', hu, rfl⟩, heq⟩ := h
    cases heq
    have hrest : rest = u ++ rest' := hstack'
    exact ⟨_, _, rest', by rw [hstack, hrest, List.append_assoc], .dup2X2 g u hg hu, rfl⟩
  case swap =>
    obtain ⟨a, g, ⟨rest, hstack, ha, rfl⟩, b, g', ⟨rest', hstack', hb, rfl⟩, heq⟩ := h
    cases heq
    have hrest : rest = [b] ++ rest' := hstack'
    exact ⟨_, _, rest', by rw [hstack, hrest]; rfl, .swap a b ha hb, rfl⟩

/-- A shuffle succeeds wherever there is something on top that it may rearrange. -/
theorem apply_of_rearranges {taken given rest : List VType} (hstack : f.stack = taken ++ rest)
    (h : how.Rearranges taken given) : how.apply f = .ok { f with stack := given ++ rest } := by
  -- every shuffle takes its operands in at most two steps, of one word or of two
  have hone : ∀ {g : Frame} {a : VType} {rest : List VType}, g.stack = a :: rest →
      width a = 1 → g.take .narrow = .ok (a, { g with stack := rest }) :=
    fun hstack ha => Frame.take_eq_ok_iff.mpr ⟨_, hstack, Check.narrow_error?.mpr ha, rfl⟩
  have htwo : ∀ {g : Frame} {u rest : List VType}, g.stack = u ++ rest → TwoWords u →
      g.takeTwoWords = .ok (u, { g with stack := rest }) :=
    fun hstack hu => Frame.takeTwoWords_eq_ok_iff.mpr ⟨_, hstack, hu, rfl⟩
  unfold Shuffle.apply
  cases h with
  | pop a ha => exact Frame.bind_eq_ok_iff.mpr ⟨_, hone hstack ha, rfl⟩
  | pop2 g hg => exact Frame.bind_eq_ok_iff.mpr ⟨_, htwo hstack hg, rfl⟩
  | dup a ha => exact Frame.bind_eq_ok_iff.mpr ⟨_, hone hstack ha, rfl⟩
  | dupX1 a b ha hb =>
    exact Frame.bind_eq_ok_iff.mpr ⟨_, hone hstack ha,
      Frame.bind_eq_ok_iff.mpr ⟨_, hone rfl hb, rfl⟩⟩
  | dupX2 a u ha hu =>
    exact Frame.bind_eq_ok_iff.mpr ⟨_, hone hstack ha,
      Frame.bind_eq_ok_iff.mpr ⟨_, htwo rfl hu, rfl⟩⟩
  | dup2 g hg => exact Frame.bind_eq_ok_iff.mpr ⟨_, htwo hstack hg, rfl⟩
  | dup2X1 g b hg hb =>
    rw [List.append_assoc] at hstack
    exact Frame.bind_eq_ok_iff.mpr ⟨_, htwo hstack hg,
      Frame.bind_eq_ok_iff.mpr ⟨_, hone rfl hb, rfl⟩⟩
  | dup2X2 g u hg hu =>
    rw [List.append_assoc] at hstack
    exact Frame.bind_eq_ok_iff.mpr ⟨_, htwo hstack hg,
      Frame.bind_eq_ok_iff.mpr ⟨_, htwo rfl hu, rfl⟩⟩
  | swap a b ha hb =>
    exact Frame.bind_eq_ok_iff.mpr ⟨_, hone hstack ha,
      Frame.bind_eq_ok_iff.mpr ⟨_, hone rfl hb, rfl⟩⟩

end Shuffle

/-! ## Actions

All other actions take values with a check, push some, or read and write one local. What a check has
let through is said in words of the value, and not of the error it would have been. -/

/-- When an action succeeds, and the frame it leaves. -/
inductive Action.Acts (f : Frame) : Action → Frame → Prop where
  | take (check : Check) (v : VType) (rest : List VType) (hstack : f.stack = v :: rest)
      (hcheck : check.error? v = none) : Acts f (.take check) { f with stack := rest }
  | push (v : VType) : Acts f (.push v) { f with stack := v :: f.stack }
  | element (v : VType) (rest : List VType) (hstack : f.stack = v :: rest)
      (hcheck : Check.referenceArray.error? v = none) :
      Acts f .element { f with stack := v.elementOf :: rest }
  | takeTwoReferences (a b : VType) (rest : List VType) (hstack : f.stack = a :: b :: rest)
      (ha : a.isReference = true) (hb : b.isReference = true) :
      Acts f .takeTwoReferences { f with stack := rest }
  | expectLocal (slot : UInt16) (v : VType) (hload : f.load slot = .ok v) :
      Acts f (.expectLocal slot v) f
  | loadReference (slot : UInt16) (v : VType) (hload : f.load slot = .ok v)
      (hv : v.isReference = true) : Acts f (.loadReference slot) { f with stack := v :: f.stack }
  | storeLocal (slot : UInt16) (v : VType) : Acts f (.storeLocal slot v) (f.store slot v)
  | storeReference (slot : UInt16) (v : VType) (rest : List VType) (hstack : f.stack = v :: rest)
      (hv : v.isReference = true) :
      Acts f (.storeReference slot) (Frame.store { f with stack := rest } slot v)
  | shuffle (how : Shuffle) (taken given rest : List VType) (hstack : f.stack = taken ++ rest)
      (hhow : how.Rearranges taken given) :
      Acts f (.shuffle how) { f with stack := given ++ rest }
  | construct (this : ClassName) (v : VType) (rest : List VType) (hstack : f.stack = v :: rest)
      (hv : v.isUninitialized = true) :
      Acts f (.construct this) (Frame.construct { f with stack := rest } v this)
  | raise (v : VType) (rest : List VType) (hstack : f.stack = v :: rest)
      (hv : v.isInitialized = true) : Acts f .raise { f with stack := [v] }

namespace Check

variable {v w : VType}

theorem reference_error? : Check.reference.error? v = none ↔ v.isReference = true := by
  simp [Check.error?]

theorem initialized_error? : Check.initialized.error? v = none ↔ v.isInitialized = true := by
  simp [Check.error?]

theorem uninitialized_error? :
    Check.uninitialized.error? v = none ↔ v.isUninitialized = true := by
  simp [Check.error?]

theorem exactly_error? : (Check.exactly w).error? v = none ↔ v = w := by
  simp [Check.error?]

end Check

namespace Action

variable {f f' : Frame} {a : Action}

/-- An action that succeeds does what is listed for it. -/
theorem acts_of_apply (h : a.apply f = .ok f') : a.Acts f f' := by
  cases a <;> simp only [Action.apply] at h
  case take check =>
    obtain ⟨⟨v, g⟩, htake, heq⟩ := Frame.bind_eq_ok_iff.mp h
    obtain ⟨rest, hstack, hcheck, rfl⟩ := Frame.take_eq_ok_iff.mp htake
    cases heq
    exact .take check v rest hstack hcheck
  case push v =>
    cases h
    exact .push v
  case element =>
    obtain ⟨⟨v, g⟩, htake, heq⟩ := Frame.bind_eq_ok_iff.mp h
    obtain ⟨rest, hstack, hcheck, rfl⟩ := Frame.take_eq_ok_iff.mp htake
    cases heq
    exact .element v rest hstack hcheck
  -- both values are taken before either is looked at
  case takeTwoReferences =>
    obtain ⟨⟨v, g⟩, hpop, h⟩ := Frame.bind_eq_ok_iff.mp h
    obtain ⟨⟨w, g'⟩, hpop', h⟩ := Frame.bind_eq_ok_iff.mp h
    obtain ⟨rest, hstack, rfl⟩ := Frame.pop_eq_ok_iff.mp hpop
    obtain ⟨rest', hstack', rfl⟩ := Frame.pop_eq_ok_iff.mp hpop'
    cases hv : Check.reference.error? v with
    | some e => simp only [hv] at h; cases h
    | none =>
      cases hw : Check.reference.error? w with
      | some e => simp only [hv, hw] at h; cases h
      | none =>
        simp only [hv, hw] at h
        cases h
        refine .takeTwoReferences v w rest' ?_ (Check.reference_error?.mp hv)
          (Check.reference_error?.mp hw)
        rw [hstack, show rest = w :: rest' from hstack']
  case expectLocal slot v =>
    cases hload : f.load slot with
    | error e => simp only [hload] at h; cases h
    | ok w =>
      simp only [hload] at h
      cases hw : (Check.exactly v).error? w with
      | some e => simp only [hw] at h; cases h
      | none =>
        simp only [hw] at h
        cases h
        rw [Check.exactly_error?.mp hw] at hload
        exact .expectLocal slot v hload
  case loadReference slot =>
    cases hload : f.load slot with
    | error e => simp only [hload] at h; cases h
    | ok w =>
      simp only [hload] at h
      cases hw : Check.reference.error? w with
      | some e => simp only [hw] at h; cases h
      | none =>
        simp only [hw] at h
        cases h
        exact .loadReference slot w hload (Check.reference_error?.mp hw)
  case storeLocal slot v =>
    cases h
    exact .storeLocal slot v
  case storeReference slot =>
    obtain ⟨⟨v, g⟩, htake, heq⟩ := Frame.bind_eq_ok_iff.mp h
    obtain ⟨rest, hstack, hcheck, rfl⟩ := Frame.take_eq_ok_iff.mp htake
    cases heq
    exact .storeReference slot v rest hstack (Check.reference_error?.mp hcheck)
  case shuffle how =>
    obtain ⟨taken, given, rest, hstack, hhow, rfl⟩ := Shuffle.rearranges_of_apply h
    exact .shuffle how taken given rest hstack hhow
  case construct this =>
    obtain ⟨⟨v, g⟩, htake, heq⟩ := Frame.bind_eq_ok_iff.mp h
    obtain ⟨rest, hstack, hcheck, rfl⟩ := Frame.take_eq_ok_iff.mp htake
    cases heq
    exact .construct this v rest hstack (Check.uninitialized_error?.mp hcheck)
  case raise =>
    obtain ⟨⟨v, g⟩, htake, heq⟩ := Frame.bind_eq_ok_iff.mp h
    obtain ⟨rest, hstack, hcheck, rfl⟩ := Frame.take_eq_ok_iff.mp htake
    cases heq
    exact .raise v rest hstack (Check.initialized_error?.mp hcheck)
  case fail e => cases h

/-- An action succeeds wherever it is listed to. -/
theorem apply_of_acts (h : a.Acts f f') : a.apply f = .ok f' := by
  have htake : ∀ {check : Check} {v : VType} {rest : List VType}, f.stack = v :: rest →
      check.error? v = none → f.take check = .ok (v, { f with stack := rest }) :=
    fun hstack hcheck => Frame.take_eq_ok_iff.mpr ⟨_, hstack, hcheck, rfl⟩
  cases h with
  | take check v rest hstack hcheck =>
    exact Frame.bind_eq_ok_iff.mpr ⟨_, htake hstack hcheck, rfl⟩
  | push v => rfl
  | element v rest hstack hcheck =>
    exact Frame.bind_eq_ok_iff.mpr ⟨_, htake hstack hcheck, rfl⟩
  | takeTwoReferences v w rest hstack hv hw =>
    -- both are popped before either of them is checked
    refine Frame.bind_eq_ok_iff.mpr ⟨_, Frame.pop_eq_ok_iff.mpr ⟨_, hstack, rfl⟩, ?_⟩
    refine Frame.bind_eq_ok_iff.mpr ⟨_, Frame.pop_eq_ok_iff.mpr ⟨rest, rfl, rfl⟩, ?_⟩
    simp only [Check.reference_error?.mpr hv, Check.reference_error?.mpr hw]
    rfl
  | expectLocal slot v hload =>
    simp only [Action.apply, hload, Check.exactly_error?.mpr rfl]
    rfl
  | loadReference slot v hload hv =>
    simp only [Action.apply, hload, Check.reference_error?.mpr hv]
    rfl
  | storeLocal slot v => rfl
  | storeReference slot v rest hstack hv =>
    exact Frame.bind_eq_ok_iff.mpr ⟨_, htake hstack (Check.reference_error?.mpr hv), rfl⟩
  | shuffle how taken given rest hstack hhow =>
    exact Shuffle.apply_of_rearranges hstack hhow
  | construct this v rest hstack hv =>
    exact Frame.bind_eq_ok_iff.mpr ⟨_, htake hstack (Check.uninitialized_error?.mpr hv), rfl⟩
  | raise v rest hstack hv =>
    exact Frame.bind_eq_ok_iff.mpr ⟨_, htake hstack (Check.initialized_error?.mpr hv), rfl⟩

end Action

/-- A completed allocation is as wide as it was before. -/
theorem width_construct (v : VType) (this : ClassName) (w : VType) :
    width (if w = v then v.constructed this else w) = width w := by
  split
  case isTrue h =>
    rw [h]
    cases v <;> rfl
  case isFalse => rfl

/-- A constructor leaves an unusable value unusable. -/
theorem construct_top (v : VType) (this : ClassName) :
    (if VerificationType.top = v then v.constructed this else .top) = .top := by
  split
  case isTrue h =>
    rw [← h]
    rfl
  case isFalse => rfl

/-- What each of some actions keeps, performing them all keeps. -/
theorem Frame.perform_induction {motive : Frame → Prop} {actions : List Action} {f f' : Frame}
    (hstep : ∀ a ∈ actions, ∀ g g', motive g → a.Acts g g' → motive g')
    (h : f.perform actions = .ok f') (hf : motive f) : motive f' := by
  induction actions generalizing f with
  | nil => cases h; exact hf
  | cons a rest ih =>
    rw [perform] at h
    cases happly : a.apply f with
    | error fault => rw [happly] at h; cases h
    | ok g =>
      rw [happly] at h
      have hg := hstep a (List.mem_cons_self ..) f g hf (Action.acts_of_apply happly)
      exact ih (fun b hb => hstep b (List.mem_cons_of_mem _ hb)) h hg

end JvmFrames
