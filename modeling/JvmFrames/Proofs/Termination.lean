import Mathlib.Algebra.Order.BigOperators.Group.List
import Mathlib.Algebra.Order.Group.Nat
import Mathlib.Data.Nat.SuccPred
import JvmFrames.Proofs.Closure
import JvmFrames.Proofs.Hierarchy
import JvmFrames.Proofs.Machine.Measure
import JvmFrames.Proofs.Values

/-!
# Analysis comes to an end

The measure of a run goes down as long as there are finitely many values (`Machine.exists_run`). So
analysis ends if the types that the method, its body and its exception table name are among finitely
many that neither the oracle nor taking elements of arrays leads out of (`Oracle.Confined`). A class
hierarchy always has such types, even if its superclasses run in circles or are not declared: it
answers with classes it was asked about, classes declared as superclasses or `java/lang/Object`, and
with arrays that have no more dimensions than those it was asked about.
-/

namespace JvmFrames

/-! ## The types and values of a run

The values of a run are the primitive ones, objects of the types within reach, and the allocations
that some `new` of the body makes at some label of it. They are finitely many, and nothing that
execution or merging does leads out of them (`Code.closed_values`, `Code.merge_mem_values`). -/

/-- Neither what types have in common nor the elements of arrays lead out of some types. -/
structure Oracle.Confined (oracle : Oracle) (types : List RefType) : Prop where
  common : ∀ a ∈ types, ∀ b ∈ types, oracle a b ∈ types
  element : ∀ a ∈ types, ∀ e ∈ a.referenceElement?, e ∈ types

def Node.references : Node → List RefType
  | .insn i => i.references
  | _ => []

/-- The types that a method, its body and its exception table name. An instruction that makes an
array names the type of the array, and one that loads a constant the type of the constant. A range
that catches everything names `java/lang/Throwable`. -/
def Analysis.namedTypes (method : Method) (code : Code) (ranges : List ProtectedRange) :
    List RefType :=
  [.object method.className] ++ method.descriptor.parameters.flatMap FieldType.references
    ++ code.nodes.toList.flatMap Node.references ++ ranges.map ProtectedRange.caught

/-- All allocations that a `new` of the body makes at a label of the body. -/
def Code.allocations (code : Code) : List VType :=
  code.nodes.toList.flatMap fun node => match node with
    | .insn (.new c) => (code.nodes.toList.filterMap Node.label?).map (VType.allocated c)
    | _ => []

/-- The values of the given types, with those that are no objects. -/
def Code.values (code : Code) (types : List RefType) : List VType :=
  [.top, .integer, .float, .long, .double, .null, .uninitializedThis]
    ++ types.map .object ++ code.allocations

namespace Code

variable {code : Code} {types : List RefType} {oracle : Oracle} {this : ClassName}

/-- An allocation is named by a `new` and a label of the body. -/
theorem mem_allocations {v : VType} : v ∈ code.allocations ↔
    ∃ c l, Node.insn (.new c) ∈ code.nodes ∧ Node.label l ∈ code.nodes ∧ v = VType.allocated c l := by
  -- sites are drawn from all labels of the body, whether or not a `new` follows
  have hlabel : ∀ l, l ∈ code.nodes.toList.filterMap Node.label? ↔ Node.label l ∈ code.nodes := by
    intro l
    rw [List.mem_filterMap]
    constructor
    · rintro ⟨node, hmem, hnode⟩
      cases node with
      | label l' => cases hnode; exact Array.mem_toList_iff.mp hmem
      | _ => cases hnode
    · exact fun hmem => ⟨.label l, Array.mem_toList_iff.mpr hmem, rfl⟩
  unfold allocations
  rw [List.mem_flatMap]
  constructor
  · rintro ⟨node, hmem, hv⟩
    split at hv
    · next c =>
      obtain ⟨l, hl, rfl⟩ := List.mem_map.mp hv
      exact ⟨c, l, Array.mem_toList_iff.mp hmem, (hlabel l).mp hl, rfl⟩
    · cases hv
  · rintro ⟨c, l, hc, hl, rfl⟩
    exact ⟨.insn (.new c), Array.mem_toList_iff.mpr hc, List.mem_map.mpr ⟨l, (hlabel l).mpr hl, rfl⟩⟩

/-- An object is one of the values if its type is one of the types. -/
theorem object_mem_values {t : RefType} : .object t ∈ code.values types ↔ t ∈ types := by
  simp [values, mem_allocations, VType.allocated]

/-- A value under construction is one of them if it is an allocation of the body. -/
theorem uninitialized_mem_values {u : Allocation} :
    .uninitialized u ∈ code.values types ↔ .uninitialized u ∈ code.allocations := by
  simp [values]

/-- The values are closed under all that execution does to them. -/
theorem closed_values (hconfined : oracle.Confined types) (hthis : .object this ∈ types)
    (hnew : ∀ c, Node.insn (.new c) ∈ code.nodes → .object c ∈ types) :
    VType.Closed (· ∈ code.values types) this where
  top := by simp [values]
  integer := by simp [values]
  float := by simp [values]
  long := by simp [values]
  double := by simp [values]
  null := by simp [values]
  element := fun v hv => by
    have hnull : .null ∈ code.values types := by simp [values]
    cases v with
    | object t =>
      cases he : t.referenceElement? with
      | none => simpa [VType.elementOf, he] using hnull
      | some e =>
        have hmem := hconfined.element t (object_mem_values.mp hv) e he
        simpa [VType.elementOf, he] using object_mem_values.mpr hmem
    | _ => exact hnull
  constructed := fun v hv => by
    cases v with
    | uninitializedThis => exact object_mem_values.mpr hthis
    | uninitialized u =>
      -- an allocation is completed to the class that some `new` of the body names
      obtain ⟨c, l, hc, _, heq⟩ := mem_allocations.mp (uninitialized_mem_values.mp hv)
      cases heq
      exact object_mem_values.mpr (hnew c hc)
    | _ => exact hv

/-- Merging gives one of the two values, `top`, or an object of the type that the oracle answers. -/
theorem merge_mem_values (hconfined : oracle.Confined types) {v w : VType}
    (hv : v ∈ code.values types) (hw : w ∈ code.values types) :
    v.merge oracle w ∈ code.values types := by
  have htop : .top ∈ code.values types := by simp [values]
  unfold VType.merge VType.meet
  split
  · exact htop
  · exact htop
  · split
    · exact hv
    · split
      · exact hw
      · exact hv
      · split
        · exact hv
        · exact htop
      · split
        · exact hw
        · exact htop
      · -- two objects merge to the answer of the oracle, the only value that is new
        exact object_mem_values.mpr
          (hconfined.common _ (object_mem_values.mp hv) _ (object_mem_values.mp hw))
      · exact htop

end Code

/-! ## Runs within finitely many types

The bound of a run is made of these values and of the words that an instruction can name. What
remains is to see that the frame on entry, execution, merging and handlers keep to it. -/

theorem Code.mem_of_siteBefore? {code : Code} {p : Nat} {l : Label}
    (h : code.siteBefore? p = some l) :
    Node.label l ∈ code.nodes := by
  obtain ⟨_, _, hnode⟩ := Code.node_of_siteBefore? h
  exact Array.mem_of_getElem? hnode

/-- Actions that push and store only values within a bound keep frames within it, if the bound has
room for all slots. -/
theorem Frame.Within.perform {b : Bound} {f f' : Frame} {actions : List Action}
    (htop : .top ∈ b.values) (hwords : 65537 ≤ b.words)
    (hsupplies : ∀ a ∈ actions, a.Supplies (· ∈ b.values)) (hf : f.Within b)
    (h : f.perform actions = .ok f') : f'.Within b :=
  ⟨hf.1.perform htop hsupplies h, Frame.words_le_of_perform hwords hf.2 h⟩

namespace Analysis

variable {oracle : Oracle} {settings : Settings} {method : Method} {code : Code}
variable {ranges : List ProtectedRange} {types : List RefType} {graph : JoinGraph}

/-- A type is named as the class of the method, by its parameters, in its body or in its exception
table. -/
theorem mem_namedTypes {t : RefType} : t ∈ namedTypes method code ranges ↔
    t = .object method.className ∨ t ∈ method.descriptor.parameters.flatMap FieldType.references
      ∨ (∃ node ∈ code.nodes, t ∈ node.references) ∨ ∃ range ∈ ranges, t = range.caught := by
  simp [namedTypes, eq_comm]

/-- The values and words that frames keep to when a body is run. No store goes beyond the last slot
of the locals, but a wide value there takes one word more. -/
def boundOf (settings : Settings) (method : Method) (code : Code) (types : List RefType) : Bound where
  values := (prepare settings code).values types
  words := max 65537 (Frame.entry method).locals.words

/-- The bound has room for a wide value in the last slot of the locals. -/
theorem words_boundOf : 65537 ≤ (boundOf settings method code types).words := Nat.le_max_left ..

section

variable (hconfined : oracle.Confined types) (hnamed : ∀ t ∈ namedTypes method code ranges, t ∈ types)

include hnamed in
/-- The types that an instruction names are among the given ones, also in the body as it is
analyzed: labels are all that was added to it. -/
theorem references_mem {i : Instruction} (hi : Node.insn i ∈ (prepare settings code).nodes) :
    ∀ t ∈ i.references, t ∈ types := by
  intro t ht
  have hmem : Node.insn i ∈ code.nodes := mem_of_mem_prepare hi rfl
  exact hnamed t (mem_namedTypes.mpr (Or.inr (Or.inr (Or.inl ⟨.insn i, hmem, ht⟩))))

include hconfined hnamed

/-- The values of the bound are closed under what execution does to values. -/
theorem closed_boundOf (settings : Settings) :
    VType.Closed (· ∈ (boundOf settings method code types).values) method.className :=
  Code.closed_values hconfined (hnamed _ (mem_namedTypes.mpr (Or.inl rfl)))
    fun _ hc => references_mem hnamed hc _ (List.mem_singleton_self _)

/-- The types that handlers catch are named, or the oracle answers with them. -/
theorem keeps_boundOf (hbuild : JoinGraph.build oracle (prepare settings code) ranges = .ok graph) :
    graph.Keeps (boundOf settings method code types) := by
  have hcaught : ∀ range ∈ ranges, range.caught ∈ types := fun range hrange =>
    hnamed _ (mem_namedTypes.mpr (Or.inr (Or.inr (Or.inr ⟨range, hrange, rfl⟩))))
  have hcommon : ∀ a b, a ∈ types → b ∈ types → oracle a b ∈ types :=
    fun a b ha hb => hconfined.common a ha b hb
  intro l t ht
  exact Code.object_mem_values.mpr (JoinGraph.catchType?_of_build hcommon hcaught hbuild l t ht)

/-- The frame on entry is within the bound. -/
theorem within_entry : (Frame.entry method).Within (boundOf settings method code types) := by
  have hthis : .object method.className ∈ types := hnamed _ (mem_namedTypes.mpr (Or.inl rfl))
  refine ⟨?_, Nat.le_max_right ..⟩
  refine Frame.holds_entry (closed_boundOf hconfined hnamed settings)
    (fun _ => VType.receiver_of (by simp [Code.values]) (Code.object_mem_values.mpr hthis) _) ?_
  intro t ht
  exact Code.object_mem_values.mpr (hnamed t (mem_namedTypes.mpr (Or.inr (Or.inl ht))))

/-- Instructions keep frames within the bound. -/
theorem within_execute {p : Nat} {i : Instruction} {f f' : Frame}
    (hnode : (prepare settings code).nodes[p]? = some (.insn i))
    (hf : f.Within (boundOf settings method code types))
    (h : f.execute method.className ((prepare settings code).siteBefore? p) i = .ok f') :
    f'.Within (boundOf settings method code types) := by
  have hclosed := closed_boundOf hconfined hnamed settings
  have hi : Node.insn i ∈ (prepare settings code).nodes := Array.mem_of_getElem? hnode
  refine hf.perform hclosed.top words_boundOf (hclosed.instruction ?_ ?_) h
  · exact fun t ht => Code.object_mem_values.mpr (references_mem hnamed hi t ht)
  · -- an allocation is named by a label of the body
    rintro c l rfl hsite
    exact Code.uninitialized_mem_values.mpr
      (Code.mem_allocations.mpr ⟨c, l, hi, Code.mem_of_siteBefore? hsite, rfl⟩)

/-- Branches keep frames within the bound, since they push nothing. -/
theorem within_executeBranch {b : Branch} {f f' : Frame}
    (hf : f.Within (boundOf settings method code types))
    (h : f.executeBranch method.descriptor.result b = .ok f') :
    f'.Within (boundOf settings method code types) :=
  hf.perform (closed_boundOf hconfined hnamed settings).top words_boundOf (b.supplies _ _) h

/-- Merging keeps frames within the bound, since it never makes locals longer. -/
theorem within_merge {f g m : Frame} (hf : f.Within (boundOf settings method code types))
    (hg : g.Within (boundOf settings method code types)) (hmerge : f.merge oracle g = .ok m) :
    m.Within (boundOf settings method code types) := by
  have htop := (closed_boundOf hconfined hnamed settings).top
  refine ⟨hf.1.merge htop (fun v w => Code.merge_mem_values hconfined) hg.1 hmerge, ?_⟩
  have hle := Frame.words_of_merge hmerge
  have hwords := hf.2
  omega

/-- All frames of a run keep to the bound. -/
theorem flow_within (hbuild : JoinGraph.build oracle (prepare settings code) ranges = .ok graph) :
    (bodyOf oracle settings method code).Flow graph
      (fun _ => Frame.Within (boundOf settings method code types))
      (fun _ => Frame.Within (boundOf settings method code types))
      (fun _ j =>
        (∀ f, j.merged = some f → f.Within (boundOf settings method code types)) ∧ True) := by
  obtain ⟨hbuilt, hfresh⟩ := JoinGraph.built_of_build hbuild
  -- each condition is one of the lemmas above; nothing is asked of join points themselves
  have hkeeps := keeps_boundOf hconfined hnamed hbuild
  refine Body.flow_of_uniform hbuilt hfresh (within_entry hconfined hnamed)
    (fun p i f f' hnode => within_execute hconfined hnamed hnode)
    (fun p b f f' _ => within_executeBranch hconfined hnamed)
    (fun l t f ht hf => hkeeps.caught ht hf) (fun f g m => within_merge hconfined hnamed)
    ?unreached ?receive ?pending
  case unreached => exact fun _ _ _ => trivial
  case receive => exact fun _ _ _ _ _ _ _ => trivial
  case pending => exact fun _ _ _ => trivial

end

/-- Analysis within finitely many types ends. -/
theorem exists_report (insertFrames : Bool) (hconfined : oracle.Confined types)
    (hnamed : ∀ t ∈ namedTypes method code ranges, t ∈ types) :
    ∃ fuel report, analyze fuel oracle ⟨insertFrames, none⟩ method code ranges = some report := by
  cases hbuild : JoinGraph.build oracle (prepare ⟨insertFrames, none⟩ code) ranges with
  | error e => exact ⟨0, _, analyze_of_build_error hbuild⟩
  | ok graph =>
    obtain ⟨hbuilt, _⟩ := JoinGraph.built_of_build hbuild
    have hkeeps := keeps_boundOf hconfined hnamed hbuild
    have flow := flow_within hconfined hnamed hbuild
    -- every move keeps the frames within the bound and makes the machine smaller
    obtain ⟨fuel, ⟨m, error⟩, hrun⟩ := Machine.exists_run rfl
      (fun m m' hm hmove => ⟨flow.moves hm hmove, hmove.measure_lt hbuilt hkeeps hm
        fun _ _ _ _ _ => within_executeBranch hconfined hnamed⟩) flow.start
    exact ⟨fuel, _, by rw [analyze_of_build_ok hbuild, hrun, Option.map_some]⟩

end Analysis

/-! ## The types within reach of a hierarchy

A hierarchy may be asked about classes that it does not know, and its superclasses may run in
circles. In all cases its answers are made of classes that were asked about or declared, and no
array in an answer has more dimensions than those in the question. -/

/-- The class that a type is, or that its elements are. -/
def RefType.classes : RefType → List ClassName
  | .object c => [c]
  | .objectArray _ c => [c]
  | .primitiveArray _ _ => []

/-- The dimensions of an array beyond the first. -/
def RefType.additional : RefType → Nat
  | .object _ => 0
  | .objectArray n _ => n
  | .primitiveArray n _ => n

def BaseType.all : List BaseType := [.byte, .char, .double, .float, .int, .long, .short, .boolean]

namespace Hierarchy

/-- The classes of some types, all classes declared as superclasses, and `java/lang/Object`. -/
def classesFrom (h : Hierarchy) (named : List RefType) : List ClassName :=
  .object :: named.flatMap RefType.classes ++ h.declarations.filterMap (·.2.superclass)

/-- The types over these classes and the base types with no more dimensions than the given ones have
together. -/
def typesFrom (h : Hierarchy) (named : List RefType) : List RefType :=
  let dimensions := List.range ((named.map RefType.additional).sum + 1)
  (h.classesFrom named).flatMap (fun c => .object c :: dimensions.map (.objectArray · c))
    ++ BaseType.all.flatMap fun t => dimensions.map (.primitiveArray · t)

variable {h : Hierarchy} {named : List RefType} {a b c d : ClassName} {n : Nat}

theorem object_mem_typesFrom : .object c ∈ h.typesFrom named ↔ c ∈ h.classesFrom named := by
  simp [typesFrom]

/-- An array of objects is within reach if its class is and it is not too deep. -/
theorem objectArray_mem_typesFrom : .objectArray n c ∈ h.typesFrom named ↔
    c ∈ h.classesFrom named ∧ n ≤ (named.map RefType.additional).sum := by
  simp [typesFrom]

/-- An array of base types is within reach if it is not too deep. -/
theorem primitiveArray_mem_typesFrom {t : BaseType} : .primitiveArray n t ∈ h.typesFrom named ↔
    n ≤ (named.map RefType.additional).sum := by
  have hall : t ∈ BaseType.all := by cases t <;> decide
  simp [typesFrom, hall]

/-- The types to start from are within reach of themselves. -/
theorem mem_typesFrom_of_named {t : RefType} (ht : t ∈ named) : t ∈ h.typesFrom named := by
  have hclass : ∀ c ∈ t.classes, c ∈ h.classesFrom named := by
    intro c hc
    refine List.mem_append_left _ (List.mem_cons_of_mem _ ?_)
    exact List.mem_flatMap.mpr ⟨t, ht, hc⟩
  have hadditional : t.additional ≤ (named.map RefType.additional).sum :=
    List.le_sum_of_mem (List.mem_map_of_mem ht)
  cases t with
  | object c => exact object_mem_typesFrom.mpr (hclass c (List.mem_singleton_self c))
  | objectArray n c =>
    exact objectArray_mem_typesFrom.mpr ⟨hclass c (List.mem_singleton_self c), hadditional⟩
  | primitiveArray n t => exact primitiveArray_mem_typesFrom.mpr hadditional

/-- All that follows the first class of a chain is declared as a superclass. -/
theorem mem_superclassesFrom {visited : List ClassName}
    (hd : d ∈ (h.superclassesFrom visited c n).1) : ∃ c', h.Extends c' d := by
  induction n generalizing visited c with
  | zero => cases hd
  | succ n ih =>
    rw [superclassesFrom] at hd
    split at hd
    · cases hd
    · cases hd
    · next superclass _ hget =>
      split at hd
      · cases hd
      · rcases List.mem_cons.mp hd with rfl | hd
        · exact ⟨c, by rw [Extends, superclass?, hget]; rfl⟩
        · exact ih hd

/-- The common class of two is one of them, a declared superclass, or `java/lang/Object`. -/
theorem commonClass_mem_classesFrom (ha : a ∈ h.classesFrom named) (hb : b ∈ h.classesFrom named) :
    h.commonClass a b ∈ h.classesFrom named := by
  have hobject : .object ∈ h.classesFrom named := List.mem_append_left _ (List.mem_cons_self ..)
  unfold commonClass
  split
  · exact ha
  · split
    · exact hobject
    · cases hfind : (h.chain b).1.find? (· ∈ (h.chain a).1) with
      | none => exact hobject
      | some d =>
        -- a class found in the line of `b` is `b` itself or was declared as a superclass
        have hmem : d ∈ b :: (h.superclassesFrom [b] b (h.declarations.length + 1)).1 :=
          List.mem_of_find?_eq_some hfind
        rcases List.mem_cons.mp hmem with rfl | hd
        · exact hb
        · obtain ⟨c', hextends⟩ := mem_superclassesFrom hd
          obtain ⟨data, hmem, hdata⟩ := exists_declaration_of_extends hextends
          exact List.mem_append_right _ (List.mem_filterMap.mpr ⟨(c', data), hmem, hdata⟩)

/-- Whatever a hierarchy looks like, its answers stay within these types. -/
theorem confined_common (h : Hierarchy) (named : List RefType) :
    Oracle.Confined h.common (h.typesFrom named) where
  common := fun a ha b hb => by
    have hobject : .object ∈ h.classesFrom named := List.mem_append_left _ (List.mem_cons_self ..)
    unfold common
    split
    · exact ha
    · split
      · rw [object_mem_typesFrom] at ha hb ⊢
        exact commonClass_mem_classesFrom ha hb
      · rw [objectArray_mem_typesFrom] at ha hb
        split
        · exact objectArray_mem_typesFrom.mpr ⟨commonClass_mem_classesFrom ha.1 hb.1, ha.2⟩
        · -- arrays of different dimensions have arrays of objects in common, with the fewer
          -- dimensions
          exact objectArray_mem_typesFrom.mpr ⟨hobject, by omega⟩
      · exact object_mem_typesFrom.mpr hobject
  element := fun a ha e he => by
    cases a with
    | object c => cases he
    | objectArray n c =>
      rw [objectArray_mem_typesFrom] at ha
      cases n with
      | zero => cases he; exact object_mem_typesFrom.mpr ha.1
      | succ n => cases he; exact objectArray_mem_typesFrom.mpr ⟨ha.1, by omega⟩
    | primitiveArray n t =>
      rw [primitiveArray_mem_typesFrom] at ha
      cases n with
      | zero => cases he
      | succ n => cases he; exact primitiveArray_mem_typesFrom.mpr (by omega)

end Hierarchy

namespace Analysis

/-- Analysis always ends, with the answers of any class hierarchy whatever, and of any oracle that
stays within finitely many types: it needs only so many steps to come to a report. -/
theorem analysis_ends (insertFrames : Bool) (method : Method) (code : Code)
    (ranges : List ProtectedRange) :
    (∀ h : Hierarchy, ∃ fuel report,
        analyze fuel h.common ⟨insertFrames, none⟩ method code ranges = some report)
      ∧ ∀ (oracle : Oracle) (types : List RefType), oracle.Confined types →
          (∀ t ∈ namedTypes method code ranges, t ∈ types) →
          ∃ fuel report,
            analyze fuel oracle ⟨insertFrames, none⟩ method code ranges = some report := by
  refine ⟨fun h => ?_, fun oracle types hconfined hnamed => ?_⟩
  · exact exists_report insertFrames (h.confined_common (namedTypes method code ranges))
      fun t ht => Hierarchy.mem_typesFrom_of_named ht
  · exact exists_report insertFrames hconfined hnamed

/-- The countdown is analyzed in finitely many steps where `String` extends itself, and with an
oracle that always prefers the first type. -/
theorem analysis_ends_countdown :
    (∃ fuel report, analyze fuel (Hierarchy.base.add .string ⟨some .string, .of [.PUBLIC]⟩).common
        .plain Countdown.method Countdown.code Countdown.ranges = some report)
      ∧ Oracle.Confined (fun a _ => a)
          (namedTypes Countdown.method Countdown.code Countdown.ranges)
      ∧ ∃ fuel report, analyze fuel (fun a _ => a) .plain Countdown.method Countdown.code
          Countdown.ranges = some report := by
  have hconfined : Oracle.Confined (fun a _ => a)
      (namedTypes Countdown.method Countdown.code Countdown.ranges) :=
    ⟨fun a ha _ _ => ha, by decide +kernel⟩
  obtain ⟨hhierarchy, horacle⟩ :=
    analysis_ends false Countdown.method Countdown.code Countdown.ranges
  exact ⟨hhierarchy _, hconfined, horacle _ _ hconfined fun _ ht => ht⟩

end Analysis

end JvmFrames
