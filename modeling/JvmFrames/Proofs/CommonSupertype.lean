import JvmFrames.Proofs.MergeOrder

/-!
# The order of types is a tree

The types above a given one form a chain: a class with its superclasses, or an array with the arrays
of these, then arrays of objects of fewer dimensions, and `java/lang/Object` last
(`Hierarchy.Rooted.subType_chain`). So two types meet in one place, which is what they have in
common.
-/

namespace JvmFrames

open Relation (ReflTransGen)

/-- An order in which the elements above a given one form a chain. -/
structure TreeOrder {α : Type} (below : α → α → Prop) : Prop where
  refl : ∀ a, below a a
  trans : ∀ a b c, below a b → below b c → below a c
  antisymm : ∀ a b, below a b → below b a → a = b
  chain : ∀ a b c, below a b → below a c → below b c ∨ below c b

namespace Hierarchy

variable {h : Hierarchy} {a b c d : ClassName} {s t u : RefType}

/-- The order of types in terms of declarations. -/
theorem subType_iff : h.SubType s t ↔ s = t ∨ t = .javaObject
    ∨ (∃ c d, s = .object c ∧ t = .object d ∧ h.isInterface c = false
        ∧ ReflTransGen h.Extends c d)
    ∨ ∃ m n c d, s = .objectArray m c ∧ t = .objectArray n d
        ∧ ((m = n ∧ h.SubType (.object c) (.object d)) ∨ (d = .object ∧ n ≤ m)) := by
  constructor
  · intro hst
    cases hst with
    | object c d hsub =>
      rcases hsub with rfl | rfl | ⟨hc, hup⟩
      · exact Or.inl rfl
      · exact Or.inr (Or.inl rfl)
      · exact Or.inr (Or.inr (Or.inl ⟨c, d, rfl, rfl, hc, hup⟩))
    | array n c d hsub =>
      exact Or.inr (Or.inr (Or.inr ⟨n, n, c, d, rfl, rfl, Or.inl ⟨rfl, .object c d hsub⟩⟩))
    -- arrays of more dimensions are arrays of objects
    | nested m n c hlt =>
      exact Or.inr (Or.inr (Or.inr
        ⟨m, n, c, .object, rfl, rfl, Or.inr ⟨rfl, Nat.le_of_lt hlt⟩⟩))
    | primitive n b => exact Or.inl rfl
    | root _ _ => exact Or.inr (Or.inl rfl)
  · rintro (rfl | rfl | ⟨c, d, rfl, rfl, hc, hup⟩ | ⟨m, n, c, d, rfl, rfl, helements⟩)
    · exact subType_refl s
    · exact subType_javaObject s
    · exact .object c d (Or.inr (Or.inr ⟨hc, hup⟩))
    · rcases helements with ⟨rfl, hcd⟩ | ⟨rfl, hle⟩
      · cases hcd with
        | object _ _ hsub => exact .array m c d hsub
        | root _ harray => cases harray
      · -- with equal dimensions the elements decide, and all of them are objects
        rcases Nat.lt_or_eq_of_le hle with hlt | rfl
        · exact .nested m n c hlt
        · exact .array n c .object (Or.inr (Or.inl rfl))

/-- A class has one superclass at most. -/
theorem rightUnique_extends : Relator.RightUnique h.Extends := by
  intro a b c hab hac
  exact Option.some.inj (Eq.trans (Eq.symm hab) hac)

namespace Rooted

variable (hrooted : h.Rooted)

include hrooted

/-- Of two classes above a third one, one is above the other. -/
theorem sub_chain (hab : h.Sub a b) (hac : h.Sub a c) : h.Sub b c ∨ h.Sub c b := by
  rcases hab with rfl | rfl | ⟨ha, hab⟩
  · exact Or.inl hac
  · exact Or.inr (Or.inr (Or.inl rfl))
  · rcases hac with rfl | rfl | ⟨_, hac⟩
    · exact Or.inr (Or.inr (Or.inr ⟨ha, hab⟩))
    · exact Or.inl (Or.inr (Or.inl rfl))
    · -- both are on the line of superclasses of `a`
      have hb := hrooted.isInterface_of_above hab ha
      have hc := hrooted.isInterface_of_above hac ha
      rcases ReflTransGen.total_of_right_unique rightUnique_extends hab hac with hbc | hcb
      · exact Or.inl (Or.inr (Or.inr ⟨hb, hbc⟩))
      · exact Or.inr (Or.inr (Or.inr ⟨hc, hcb⟩))

/-- Of two types above a third one, one is above the other. An array has fewer and fewer dimensions
on the way up, and then only `java/lang/Object` is left. -/
theorem subType_chain (hst : h.SubType s t) (hsu : h.SubType s u) :
    h.SubType t u ∨ h.SubType u t := by
  cases hst with
  | object c d hsub =>
    cases hsu with
    | object _ e hsub' =>
      exact (hrooted.sub_chain hsub hsub').imp (.object d e) (.object e d)
    | root _ harray => cases harray
  | array n c d hsub =>
    cases hsu with
    | array _ _ e hsub' =>
      exact (hrooted.sub_chain hsub hsub').imp (.array n d e) (.array n e d)
    | nested _ k _ hlt => exact Or.inl (.nested n k d hlt)
    | root _ _ => exact Or.inl (subType_javaObject _)
  | nested m n c hlt =>
    cases hsu with
    | array _ _ e _ => exact Or.inr (.nested m n e hlt)
    | nested _ k _ _ =>
      -- both are arrays of objects, and the one with fewer dimensions is above
      rcases Nat.lt_trichotomy n k with hnk | rfl | hkn
      · exact Or.inr (.nested k n .object hnk)
      · exact Or.inl (subType_refl _)
      · exact Or.inl (.nested n k .object hkn)
    | root _ _ => exact Or.inl (subType_javaObject _)
  | primitive n b => exact Or.inl hsu
  | root _ _ => exact Or.inr (subType_javaObject u)

theorem treeOrder : TreeOrder h.SubType where
  refl := subType_refl
  trans := fun _ _ _ => hrooted.subType_trans
  antisymm := fun _ _ => hrooted.subType_antisymm
  chain := fun _ _ _ => hrooted.subType_chain

end Rooted

/-- In a well-formed hierarchy the types are ordered by their declarations as a tree, and what two
types have in common is their least upper bound. So it does not matter in what order types are put
together, nor how often. -/
theorem common_is_least_upper_bound (hwf : h.WellFormed) :
    (∀ s t, h.SubType s t ↔ s = t ∨ t = .javaObject
        ∨ (∃ c d, s = .object c ∧ t = .object d ∧ h.isInterface c = false
            ∧ ReflTransGen h.Extends c d)
        ∨ ∃ m n c d, s = .objectArray m c ∧ t = .objectArray n d
            ∧ ((m = n ∧ h.SubType (.object c) (.object d)) ∨ (d = .object ∧ n ≤ m)))
      ∧ TreeOrder h.SubType
      ∧ (∀ s t, h.SubType s (h.common s t) ∧ h.SubType t (h.common s t))
      ∧ (∀ s t u, h.SubType s u → h.SubType t u → h.SubType (h.common s t) u)
      ∧ (∀ t, h.common t t = t)
      ∧ (∀ s t, h.common s t = h.common t s)
      ∧ ∀ s t u, h.common (h.common s t) u = h.common s (h.common t u) :=
  ⟨fun _ _ => subType_iff, hwf.rooted.treeOrder, hwf.rooted.subType_common,
    fun _ _ _ => hwf.rooted.common_subType, common_self, hwf.lawful.comm hwf.antisymm,
    hwf.lawful.assoc hwf.antisymm⟩

/-- Arrays of two exceptions have arrays of their nearest common superclass in common, which are
arrays of objects. -/
theorem common_is_least_upper_bound_exceptions :
    javaLang.WellFormed
      ∧ javaLang.common (.objectArray 0 .arithmeticException) (.objectArray 0 .error)
        = .objectArray 0 .throwable
      ∧ javaLang.SubType (.objectArray 0 .error) (.objectArray 0 .throwable)
      ∧ javaLang.SubType (.objectArray 0 .throwable) (.objectArray 0 .object) := by
  obtain ⟨hiff, _, habove, hleast, _⟩ := common_is_least_upper_bound wellFormed_javaLang
  have hcommon : javaLang.common (.objectArray 0 .arithmeticException) (.objectArray 0 .error)
      = .objectArray 0 .throwable := by decide
  -- both arrays are arrays of objects, so what they have in common is one too
  have hobjects : ∀ c, javaLang.SubType (.objectArray 0 c) (.objectArray 0 .object) := fun c =>
    (hiff _ _).mpr <| Or.inr <| Or.inr <| Or.inr
      ⟨0, 0, c, .object, rfl, rfl, Or.inr ⟨rfl, Nat.le_refl 0⟩⟩
  have hright := (habove (.objectArray 0 .arithmeticException) (.objectArray 0 .error)).2
  have hbelow := hleast _ _ _ (hobjects .arithmeticException) (hobjects .error)
  rw [hcommon] at hright hbelow
  exact ⟨wellFormed_javaLang, hcommon, hright, hbelow⟩

end Hierarchy

end JvmFrames
