import Mathlib.Data.List.Nodup
import Mathlib.Data.List.Perm.Subperm
import Mathlib.Logic.Relation
import JvmFrames.Hierarchy
import JvmFrames.Proofs.Assignable

/-!
# What two types have in common is their least common supertype

In a hierarchy without cycles, the chain of a class is its line of superclasses up to one that has
none (`Hierarchy.line_chain`). If moreover no superclass is an interface, then "`b` is what `a` and
`b` have in common" is an order on types, and `Hierarchy.common` gives least upper bounds in it
(`Hierarchy.Rooted.lawful`). Interfaces have nothing above them but `java/lang/Object`, and for that
it does not matter whether `java/lang/Object` is declared as one itself.
-/

namespace JvmFrames

open Relation (ReflTransGen TransGen)

/-! ## Lines of superclasses

The chain of a class is computed with fuel and stops at a class it has met. Without cycles neither
of the two cuts it short, and it is the whole line of superclasses. -/

namespace Hierarchy

variable {h : Hierarchy} {a b c d : ClassName} {line : List ClassName}

/-- The declared superclass of a class. -/
def superclass? (h : Hierarchy) (c : ClassName) : Option ClassName :=
  (h.get? c).bind (·.superclass)

/-- A class is declared with a superclass. -/
def Extends (h : Hierarchy) (c d : ClassName) : Prop := h.superclass? c = some d

/-- A hierarchy in which superclasses lead up to classes that have none, without cycles and through
no interface. -/
structure WellFormed (h : Hierarchy) : Prop where
  acyclic : ∀ c, ¬ TransGen h.Extends c c
  root : h.superclass? .object = none
  rootClass : h.isInterface .object = false
  classes : ∀ c d, h.Extends c d → h.isInterface d = false

/-- The part of it that the order of types rests on. -/
structure Rooted (h : Hierarchy) : Prop where
  acyclic : ∀ c, ¬ TransGen h.Extends c c
  root : h.superclass? .object = none
  classes : ∀ c d, h.Extends c d → h.isInterface d = false

theorem WellFormed.rooted (hwf : h.WellFormed) : h.Rooted := ⟨hwf.acyclic, hwf.root, hwf.classes⟩

/-- A class with all its superclasses in order. -/
inductive Line (h : Hierarchy) : ClassName → List ClassName → Prop where
  | top (c : ClassName) (hnone : h.superclass? c = none) : Line h c [c]
  | under (c d : ClassName) (line : List ClassName) (hd : h.Extends c d) (hline : Line h d line) :
      Line h c (c :: line)

/-- Nothing is above a class without a superclass. -/
theorem eq_of_no_superclass (hnone : h.superclass? c = none) (hcd : ReflTransGen h.Extends c d) :
    d = c := by
  rcases hcd.cases_head with heq | ⟨e, he, _⟩
  · exact heq.symm
  · rw [Extends, hnone] at he
    cases he

/-- The line of a class has all that is above it. -/
theorem Line.mem_iff (hline : h.Line c line) : d ∈ line ↔ ReflTransGen h.Extends c d := by
  induction hline with
  | top c hnone =>
    rw [List.mem_singleton]
    constructor
    · rintro rfl
      exact .refl
    · exact eq_of_no_superclass hnone
  | under c e line he _ ih =>
    rw [List.mem_cons, ih]
    constructor
    · rintro (rfl | hed)
      · exact .refl
      · exact .head he hed
    · intro hcd
      rcases hcd.cases_head with heq | ⟨e', he', hed⟩
      · exact Or.inl heq.symm
      · -- a class has one superclass, so whatever is above goes through it
        rw [Extends] at he he'
        rw [he] at he'
        cases he'
        exact Or.inr hed

/-- The first class of a line with some property is below all the others that have it. -/
theorem Line.below_of_find? {P : ClassName → Bool} (hline : h.Line c line)
    (hfind : line.find? P = some a) (hb : b ∈ line) (hPb : P b = true) :
    ReflTransGen h.Extends a b := by
  induction hline with
  | top c hnone =>
    have ha := List.mem_of_find?_eq_some hfind
    rw [List.mem_singleton] at ha hb
    rw [ha, hb]
  | under c e line he hline ih =>
    have hwhole : h.Line c (c :: line) := .under c e line he hline
    cases hPc : P c with
    -- the first class has the property, and everything in the line is above it
    | true =>
      rw [List.find?_cons_of_pos hPc] at hfind
      cases hfind
      exact hwhole.mem_iff.mp hb
    | false =>
      rw [List.find?_cons_of_neg (by simp [hPc])] at hfind
      rcases List.mem_cons.mp hb with rfl | hb
      · rw [hPc] at hPb
        cases hPb
      · exact ih hfind hb

theorem mem_of_get? {data : ClassData} (hget : h.get? c = some data) :
    (c, data) ∈ h.declarations := by
  obtain ⟨before, after, heq, _⟩ := List.lookup_eq_some_iff.mp hget
  rw [heq]
  exact List.mem_append_right _ (List.mem_cons_self ..)

/-- A class that has a superclass is declared with it. -/
theorem exists_declaration_of_extends (hcd : h.Extends c d) :
    ∃ data, (c, data) ∈ h.declarations ∧ data.superclass = some d := by
  unfold Extends superclass? at hcd
  obtain ⟨data, hget, hdata⟩ := Option.bind_eq_some_iff.mp hcd
  exact ⟨data, mem_of_get? hget, hdata⟩

/-- Following superclasses from the end of a trail gives a line. The trail has no class twice and
all but its last class are declared, so the fuel outlasts it. -/
theorem line_superclassesFrom (hacyclic : ∀ c, ¬ TransGen h.Extends c c) {visited : List ClassName}
    {n : Nat} (hnodup : visited.Nodup) (htrail : ∀ v ∈ visited, ReflTransGen h.Extends v c)
    (hdeclared : ∀ v ∈ visited, v = c ∨ v ∈ h.declarations.map (·.1))
    (hfuel : h.declarations.length + 1 < n + visited.length) :
    h.Line c (c :: (h.superclassesFrom visited c n).1) := by
  -- the trail grows by one class with each unit of fuel, and there are only so many classes
  induction n generalizing visited c with
  | zero =>
    -- more different classes would have been visited than there are
    have hsub : visited ⊆ c :: h.declarations.map (·.1) := by
      intro v hv
      rcases hdeclared v hv with rfl | hmem
      · exact List.mem_cons_self ..
      · exact List.mem_cons_of_mem _ hmem
    have hle := (List.subperm_of_subset hnodup hsub).length_le
    rw [List.length_cons, List.length_map] at hle
    omega
  | succ n ih =>
    rw [superclassesFrom]
    cases hget : h.get? c with
    | none => exact .top c (by rw [superclass?, hget]; rfl)
    | some data =>
      obtain ⟨superclass, flags⟩ := data
      cases superclass with
      | none => exact .top c (by rw [superclass?, hget]; rfl)
      | some d =>
        have hcd : h.Extends c d := by
          rw [Extends, superclass?, hget]
          rfl
        by_cases hmem : d ∈ visited
        · -- a class met again would be its own superclass
          exact absurd (TransGen.tail' (htrail d hmem) hcd) (hacyclic d)
        · simp only [if_neg hmem]
          refine .under c d _ hcd (ih (List.nodup_cons.mpr ⟨hmem, hnodup⟩) ?_ ?_ ?_)
          · intro v hv
            rcases List.mem_cons.mp hv with rfl | hv
            · exact .refl
            · exact (htrail v hv).tail hcd
          · intro v hv
            rcases List.mem_cons.mp hv with rfl | hv
            · exact Or.inl rfl
            · rcases hdeclared v hv with rfl | hv
              · obtain ⟨data, hdata, _⟩ := exists_declaration_of_extends hcd
                exact Or.inr (List.mem_map.mpr ⟨_, hdata, rfl⟩)
              · exact Or.inr hv
          · rw [List.length_cons]
            omega

/-- The chain of a class is its line of superclasses. -/
theorem line_chain (hacyclic : ∀ c, ¬ TransGen h.Extends c c) (c : ClassName) :
    h.Line c (h.chain c).1 := by
  show h.Line c (c :: (h.superclassesFrom [c] c (h.declarations.length + 1)).1)
  refine line_superclassesFrom hacyclic (List.nodup_singleton c) ?_ ?_ ?_
  · intro v hv
    rw [List.mem_singleton.mp hv]
  · intro v hv
    exact Or.inl (List.mem_singleton.mp hv)
  · rw [List.length_singleton]
    omega

/-! ## Classes

`Sub` is the order that the common class is least in. An interface is below itself and
`java/lang/Object` only, whatever it extends. -/

/-- Every value of class `a` has class `b` too, as far as the hierarchy tells. -/
def Sub (h : Hierarchy) (a b : ClassName) : Prop :=
  a = b ∨ b = .object ∨ (h.isInterface a = false ∧ ReflTransGen h.Extends a b)

/-- An interface has only `java/lang/Object` in common with another class. -/
theorem commonClass_interface (hne : a ≠ b)
    (hab : h.isInterface a = true ∨ h.isInterface b = true) : h.commonClass a b = .object := by
  unfold commonClass
  rw [if_neg hne, if_pos (by simpa using hab)]

namespace Rooted

variable (hrooted : h.Rooted)

include hrooted

theorem eq_object_of_object (hcd : ReflTransGen h.Extends .object d) : d = .object :=
  eq_of_no_superclass hrooted.root hcd

/-- Superclasses of ordinary classes are ordinary classes. -/
theorem isInterface_of_above (hcd : ReflTransGen h.Extends c d) (hc : h.isInterface c = false) :
    h.isInterface d = false := by
  rcases hcd.cases_tail with heq | ⟨e, _, he⟩
  · rw [heq]
    exact hc
  · exact hrooted.classes e d he

theorem mem_chain_iff : d ∈ (h.chain c).1 ↔ ReflTransGen h.Extends c d :=
  (line_chain hrooted.acyclic c).mem_iff

/-- Two different classes, none of them an interface, have their first common superclass in common,
or `java/lang/Object` if there is none. -/
theorem commonClass_cases (hne : a ≠ b) (ha : h.isInterface a = false)
    (hb : h.isInterface b = false) :
    (∃ c, h.commonClass a b = c ∧ ReflTransGen h.Extends a c ∧ ReflTransGen h.Extends b c
        ∧ ∀ d, ReflTransGen h.Extends a d → ReflTransGen h.Extends b d → ReflTransGen h.Extends c d)
      ∨ (h.commonClass a b = .object
          ∧ ∀ d, ReflTransGen h.Extends a d → ¬ ReflTransGen h.Extends b d) := by
  unfold commonClass
  rw [if_neg hne, ha, hb]
  simp only [Bool.or_self, Bool.false_eq_true, if_false]
  -- the search goes up from `b` until it meets the line of `a`
  cases hfind : (h.chain b).1.find? (fun c => decide (c ∈ (h.chain a).1)) with
  | some c =>
    left
    have hc : c ∈ (h.chain a).1 := by simpa using List.find?_some hfind
    refine ⟨c, rfl, hrooted.mem_chain_iff.mp hc,
      hrooted.mem_chain_iff.mp (List.mem_of_find?_eq_some hfind), ?_⟩
    intro d had hbd
    exact (line_chain hrooted.acyclic b).below_of_find? hfind (hrooted.mem_chain_iff.mpr hbd)
      (by simpa using hrooted.mem_chain_iff.mpr had)
  | none =>
    right
    refine ⟨rfl, fun d had hbd => ?_⟩
    -- a common superclass would be in both lines, and would have been found
    rw [List.find?_eq_none] at hfind
    have hnot := hfind d (hrooted.mem_chain_iff.mpr hbd)
    simp only [decide_eq_true_eq] at hnot
    exact hnot (hrooted.mem_chain_iff.mpr had)

/-- The order of classes is transitive. -/
theorem sub_trans (hab : h.Sub a b) (hbc : h.Sub b c) : h.Sub a c := by
  rcases hab with rfl | rfl | ⟨ha, hab⟩
  · exact hbc
  · -- nothing but itself is above `java/lang/Object`
    rcases hbc with rfl | rfl | ⟨_, hbc⟩
    · exact Or.inr (Or.inl rfl)
    · exact Or.inr (Or.inl rfl)
    · exact Or.inr (Or.inl (hrooted.eq_object_of_object hbc))
  · rcases hbc with rfl | rfl | ⟨_, hbc⟩
    · exact Or.inr (Or.inr ⟨ha, hab⟩)
    · exact Or.inr (Or.inl rfl)
    · exact Or.inr (Or.inr ⟨ha, hab.trans hbc⟩)

/-- What two classes have in common is above both. -/
theorem sub_commonClass (a b : ClassName) :
    h.Sub a (h.commonClass a b) ∧ h.Sub b (h.commonClass a b) := by
  by_cases hne : a = b
  · rw [hne, commonClass, if_pos rfl]
    exact ⟨Or.inl rfl, Or.inl rfl⟩
  · by_cases hint : h.isInterface a = true ∨ h.isInterface b = true
    · rw [commonClass_interface hne hint]
      exact ⟨Or.inr (Or.inl rfl), Or.inr (Or.inl rfl)⟩
    · have ha : h.isInterface a = false := by simpa using fun hc => hint (Or.inl hc)
      have hb : h.isInterface b = false := by simpa using fun hc => hint (Or.inr hc)
      rcases hrooted.commonClass_cases hne ha hb with ⟨c, hc, hac, hbc, _⟩ | ⟨hc, _⟩
      · rw [hc]
        exact ⟨Or.inr (Or.inr ⟨ha, hac⟩), Or.inr (Or.inr ⟨hb, hbc⟩)⟩
      · rw [hc]
        exact ⟨Or.inr (Or.inl rfl), Or.inr (Or.inl rfl)⟩

/-- Above an interface there is only itself and `java/lang/Object`, and below it only itself. -/
theorem eq_of_sub_of_interface (hac : h.Sub a c) (hc : c ≠ .object)
    (hint : h.isInterface a = true ∨ h.isInterface c = true) : a = c := by
  rcases hac with heq | hobject | ⟨ha, hac⟩
  · exact heq
  · exact absurd hobject hc
  · rcases hac.cases_tail with heq | ⟨e, _, he⟩
    · exact heq.symm
    · rw [ha, hrooted.classes e c he] at hint
      simp at hint

/-- What two classes have in common is below everything above both. -/
theorem commonClass_sub (hac : h.Sub a c) (hbc : h.Sub b c) : h.Sub (h.commonClass a b) c := by
  by_cases hobject : c = .object
  · exact Or.inr (Or.inl hobject)
  · by_cases hne : a = b
    · rw [← hne, commonClass, if_pos rfl]
      exact hac
    · by_cases hint : h.isInterface a = true ∨ h.isInterface b = true
      · -- one of the two is an interface and so is `c`, and hence all three are one
        refine absurd ?_ hne
        rcases hint with ha | hb
        · have heq := hrooted.eq_of_sub_of_interface hac hobject (Or.inl ha)
          rw [heq] at ha
          exact heq.trans (hrooted.eq_of_sub_of_interface hbc hobject (Or.inr ha)).symm
        · have heq := hrooted.eq_of_sub_of_interface hbc hobject (Or.inl hb)
          rw [heq] at hb
          exact (hrooted.eq_of_sub_of_interface hac hobject (Or.inr hb)).trans heq.symm
      · have ha : h.isInterface a = false := by simpa using fun hc => hint (Or.inl hc)
        have hb : h.isInterface b = false := by simpa using fun hc => hint (Or.inr hc)
        have hup : ∀ {x}, h.Sub x c → ReflTransGen h.Extends x c := by
          rintro x (rfl | hx | ⟨_, hx⟩)
          · exact .refl
          · exact absurd hx hobject
          · exact hx
        rcases hrooted.commonClass_cases hne ha hb with ⟨d, hd, had, _, hleast⟩ | ⟨_, hnone⟩
        · rw [hd]
          exact Or.inr (Or.inr ⟨hrooted.isInterface_of_above had ha, hleast c (hup hac) (hup hbc)⟩)
        · exact absurd (hup hbc) (hnone c (hup hac))

/-- Two classes that are above each other are the same. -/
theorem sub_antisymm (hab : h.Sub a b) (hba : h.Sub b a) : a = b := by
  rcases hab with heq | rfl | ⟨_, hab⟩
  · exact heq
  · rcases hba with heq | heq | ⟨_, hba⟩
    · exact heq.symm
    · exact heq
    · exact hrooted.eq_object_of_object hba
  · rcases hba with heq | rfl | ⟨_, hba⟩
    · exact heq.symm
    · exact (hrooted.eq_object_of_object hab).symm
    · rcases hab.cases_head with heq | ⟨c, hac, hcb⟩
      · exact heq
      · exact absurd (TransGen.head' hac (hcb.trans hba)) (hrooted.acyclic a)

end Rooted

/-! ## Types

Arrays of objects follow the order of their elements, and an array with more dimensions is below the
array of `java/lang/Object` with fewer. Arrays of a base type have no relatives other than
`java/lang/Object`. -/

/-- The same for types. An array of arrays is an array of objects, and every array an object. -/
inductive SubType (h : Hierarchy) : RefType → RefType → Prop where
  | object (c d : ClassName) (hsub : h.Sub c d) : SubType h (.object c) (.object d)
  | array (n : Nat) (c d : ClassName) (hsub : h.Sub c d) :
      SubType h (.objectArray n c) (.objectArray n d)
  | nested (m n : Nat) (c : ClassName) (hlt : n < m) :
      SubType h (.objectArray m c) (.objectArray n .object)
  | primitive (n : Nat) (t : BaseType) : SubType h (.primitiveArray n t) (.primitiveArray n t)
  | root (a : RefType) (harray : a.isArray = true) : SubType h a .javaObject

variable {s t u : RefType}

theorem common_object (c d : ClassName) :
    h.common (.object c) (.object d) = .object (h.commonClass c d) := by
  unfold common
  by_cases heq : c = d
  · rw [if_pos (by rw [heq]), heq, commonClass, if_pos rfl]
  · rw [if_neg (by simpa using heq)]

theorem common_objectArray (m n : Nat) (c d : ClassName) :
    h.common (.objectArray m c) (.objectArray n d)
      = if m = n then .objectArray m (h.commonClass c d) else .objectArray (min m n) .object := by
  unfold common
  by_cases heq : RefType.objectArray m c = .objectArray n d
  · cases heq
    rw [if_pos rfl, if_pos rfl, commonClass, if_pos rfl]
  · rw [if_neg heq]

theorem common_self (t : RefType) : h.common t t = t := if_pos rfl

theorem subType_refl (t : RefType) : h.SubType t t := by
  cases t with
  | object c => exact .object c c (Or.inl rfl)
  | objectArray n c => exact .array n c c (Or.inl rfl)
  | primitiveArray n t => exact .primitive n t

theorem subType_javaObject (t : RefType) : h.SubType t .javaObject := by
  cases t with
  | object c => exact .object c .object (Or.inr (Or.inl rfl))
  | objectArray n c => exact .root _ rfl
  | primitiveArray n t => exact .root _ rfl

/-- Below an array of references there are arrays of references only, and their elements are in
order. -/
theorem subType_element (hst : h.SubType s t) {e : RefType} (he : t.referenceElement? = some e) :
    ∃ d, s.referenceElement? = some d ∧ h.SubType d e := by
  cases hst with
  | object c d _ => cases he
  | array n c d hsub =>
    cases n with
    | zero => cases he; exact ⟨_, rfl, .object c d hsub⟩
    | succ n => cases he; exact ⟨_, rfl, .array n c d hsub⟩
  | nested m n c hlt =>
    -- both lose a dimension, and arrays of one dimension less are objects
    cases m with
    | zero => cases hlt
    | succ m =>
      cases n with
      | zero => cases he; exact ⟨_, rfl, .root _ rfl⟩
      | succ n => cases he; exact ⟨_, rfl, .nested m n c (Nat.lt_of_succ_lt_succ hlt)⟩
  | primitive n b =>
    cases n with
    | zero => cases he
    | succ n => cases he; exact ⟨_, rfl, .primitive n b⟩
  | root _ _ => cases he

namespace Rooted

variable (hrooted : h.Rooted)

include hrooted

/-- Nothing else is above `java/lang/Object`. -/
theorem eq_javaObject_of_subType (hst : h.SubType .javaObject t) : t = .javaObject := by
  cases hst with
  | object _ d hsub =>
    rcases hsub with rfl | rfl | ⟨_, hup⟩
    · rfl
    · rfl
    · rw [hrooted.eq_object_of_object hup]
      rfl
  | root _ harray => rfl

/-- The order of types is transitive. -/
theorem subType_trans (hst : h.SubType s t) (htu : h.SubType t u) : h.SubType s u := by
  cases hst with
  | object c d hsub =>
    cases htu with
    | object _ e hsub' => exact .object c e (hrooted.sub_trans hsub hsub')
    | root _ _ => exact subType_javaObject _
  | array n c d hsub =>
    cases htu with
    | array _ _ e hsub' => exact .array n c e (hrooted.sub_trans hsub hsub')
    | nested _ k _ hlt => exact .nested n k c hlt
    | root _ _ => exact subType_javaObject _
  | nested m n c hlt =>
    cases htu with
    | array _ _ e hsub =>
      -- the elements are already of class `java/lang/Object`, and stay so
      have hobject := hrooted.eq_javaObject_of_subType (.object _ e hsub)
      cases hobject
      exact .nested m n c hlt
    | nested _ k _ hlt' => exact .nested m k c (Nat.lt_trans hlt' hlt)
    | root _ _ => exact subType_javaObject _
  | primitive n t => exact htu
  | root _ _ =>
    rw [hrooted.eq_javaObject_of_subType htu]
    exact subType_javaObject s

/-- What two types have in common is above both. -/
theorem subType_common (s t : RefType) :
    h.SubType s (h.common s t) ∧ h.SubType t (h.common s t) := by
  by_cases heq : s = t
  · rw [heq, common_self]
    exact ⟨subType_refl t, subType_refl t⟩
  · -- types of different kinds have only `java/lang/Object` in common
    have hroot : h.common s t = .javaObject →
        h.SubType s (h.common s t) ∧ h.SubType t (h.common s t) := fun hcommon => by
      rw [hcommon]
      exact ⟨subType_javaObject s, subType_javaObject t⟩
    cases s with
    | object c =>
      cases t with
      | object d =>
        rw [common_object]
        have hsub := hrooted.sub_commonClass c d
        exact ⟨.object _ _ hsub.1, .object _ _ hsub.2⟩
      | objectArray n d => exact hroot (if_neg heq)
      | primitiveArray n t => exact hroot (if_neg heq)
    | objectArray m c =>
      cases t with
      | object d => exact hroot (if_neg heq)
      | objectArray n d =>
        rw [common_objectArray]
        by_cases hmn : m = n
        · rw [if_pos hmn, ← hmn]
          have hsub := hrooted.sub_commonClass c d
          exact ⟨.array m _ _ hsub.1, .array m _ _ hsub.2⟩
        · rw [if_neg hmn]
          rcases Nat.lt_or_gt_of_ne hmn with hlt | hlt
          · rw [Nat.min_eq_left (Nat.le_of_lt hlt)]
            exact ⟨.array m _ _ (Or.inr (Or.inl rfl)), .nested n m d hlt⟩
          · rw [Nat.min_eq_right (Nat.le_of_lt hlt)]
            exact ⟨.nested m n c hlt, .array n _ _ (Or.inr (Or.inl rfl))⟩
      | primitiveArray n t => exact hroot (if_neg heq)
    | primitiveArray m b =>
      cases t with
      | object d => exact hroot (if_neg heq)
      | objectArray n d => exact hroot (if_neg heq)
      | primitiveArray n t => exact hroot (if_neg heq)

/-- What two types have in common is below everything above both. -/
theorem common_subType (hsu : h.SubType s u) (htu : h.SubType t u) :
    h.SubType (h.common s t) u := by
  -- the upper bound of the two tells of which kinds they may be
  cases hsu with
  | object c e hsub =>
    cases htu with
    | object d _ hsub' =>
      rw [common_object]
      exact .object _ _ (hrooted.commonClass_sub hsub hsub')
    | root _ _ => exact subType_javaObject _
  | array n c e hsub =>
    cases htu with
    | array _ d _ hsub' =>
      rw [common_objectArray, if_pos rfl]
      exact .array n _ _ (hrooted.commonClass_sub hsub hsub')
    | nested m _ d hlt =>
      rw [common_objectArray, if_neg (Nat.ne_of_lt hlt), Nat.min_eq_left (Nat.le_of_lt hlt)]
      exact subType_refl _
  | nested m n c hlt =>
    cases htu with
    | array _ d _ hsub =>
      rw [common_objectArray, if_neg (Nat.ne_of_gt hlt), Nat.min_eq_right (Nat.le_of_lt hlt)]
      exact subType_refl _
    | nested k _ d hlt' =>
      rw [common_objectArray]
      by_cases hmk : m = k
      · rw [if_pos hmk]
        exact .nested m n _ hlt
      · rw [if_neg hmk]
        exact .nested _ n _ (Nat.lt_min.mpr ⟨hlt, hlt'⟩)
  | primitive n b =>
    cases htu with
    | primitive _ _ =>
      rw [common_self]
      exact .primitive n b
  | root _ _ => exact subType_javaObject _

/-- Two types that are above each other are the same. -/
theorem subType_antisymm (hst : h.SubType s t) (hts : h.SubType t s) : s = t := by
  cases hst with
  | object c d hsub =>
    cases hts with
    | object _ _ hsub' => rw [hrooted.sub_antisymm hsub hsub']
    | root _ harray => cases harray
  | array n c d hsub =>
    cases hts with
    | array _ _ _ hsub' => rw [hrooted.sub_antisymm hsub hsub']
    | nested _ _ _ hlt => exact absurd hlt (Nat.lt_irrefl n)
  | nested m n c hlt =>
    -- an array and one of more dimensions are not above each other
    cases hts with
    | array _ _ _ _ => exact absurd hlt (Nat.lt_irrefl _)
    | nested _ _ _ hlt' => exact absurd hlt (Nat.lt_asymm hlt')
  | primitive n b => rfl
  | root _ _ => exact hrooted.eq_javaObject_of_subType hts

/-- A type is what it has in common with another exactly if it is above the other. -/
theorem common_eq_right_iff : h.common s t = t ↔ h.SubType s t := by
  constructor
  · intro heq
    have hsub := (hrooted.subType_common s t).1
    rw [heq] at hsub
    exact hsub
  · intro hst
    exact hrooted.subType_antisymm (hrooted.common_subType hst (subType_refl t))
      (hrooted.subType_common s t).2

/-- The oracle of such a hierarchy gives least upper bounds. -/
theorem lawful : Oracle.Lawful h.common where
  self := common_self
  -- each law is one about `SubType`, which is what the oracle answers by
  trans := fun a b c hab hbc => by
    rw [hrooted.common_eq_right_iff] at hab hbc ⊢
    exact hrooted.subType_trans hab hbc
  left := fun a b => by
    rw [hrooted.common_eq_right_iff]
    exact (hrooted.subType_common a b).1
  right := fun a b => by
    rw [hrooted.common_eq_right_iff]
    exact (hrooted.subType_common a b).2
  least := fun a b c hac hbc => by
    rw [hrooted.common_eq_right_iff] at hac hbc ⊢
    exact hrooted.common_subType hac hbc
  array := fun a b hab harray => by
    rw [hrooted.common_eq_right_iff] at hab
    cases hab with
    | object _ _ _ => cases harray
    | array _ _ _ _ => rfl
    | nested _ _ _ _ => rfl
    | primitive _ _ => rfl
    | root _ _ => cases harray
  element := fun a b e hab he => by
    rw [hrooted.common_eq_right_iff] at hab
    obtain ⟨d, hd, hde⟩ := subType_element hab he
    exact ⟨d, hd, hrooted.common_eq_right_iff.mpr hde⟩
  primitive := fun a n t hab => by
    rw [hrooted.common_eq_right_iff] at hab
    cases hab with
    | primitive _ _ => rfl

end Rooted

theorem WellFormed.lawful (hwf : h.WellFormed) : Oracle.Lawful h.common := hwf.rooted.lawful

/-- It is enough that every superclass declared is an ordinary class and is nearer to the root. -/
theorem wellFormed_of_rank (rank : ClassName → Nat)
    (hroot : h.superclass? .object = none ∧ h.isInterface .object = false)
    (hrank : ∀ x ∈ h.declarations, ∀ d ∈ x.2.superclass,
      rank d < rank x.1 ∧ h.isInterface d = false) :
    h.WellFormed := by
  have hstep : ∀ c d, h.Extends c d → rank d < rank c ∧ h.isInterface d = false := by
    intro c d hcd
    obtain ⟨data, hmem, hdata⟩ := exists_declaration_of_extends hcd
    exact hrank (c, data) hmem d hdata
  -- ranks fall on the way up, so nothing is above itself
  have hclimb : ∀ c d, TransGen h.Extends c d → rank d < rank c := by
    intro c d hcd
    induction hcd with
    | single hcd => exact (hstep _ _ hcd).1
    | tail _ hde ih => exact Nat.lt_trans (hstep _ _ hde).1 ih
  exact ⟨fun c hc => Nat.lt_irrefl _ (hclimb c c hc), hroot.1, hroot.2,
    fun c d hcd => (hstep c d hcd).2⟩

/-- The classes of `java/lang` that are known from the start form a well-formed hierarchy. -/
theorem wellFormed_javaLang : javaLang.WellFormed :=
  wellFormed_of_rank (fun c => (javaLang.chain c).1.length) (by decide) (by decide +kernel)

end Hierarchy

end JvmFrames
