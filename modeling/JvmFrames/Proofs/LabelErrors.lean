import JvmFrames.Proofs.Closure
import JvmFrames.Proofs.JoinGraph.Labels
import JvmFrames.Proofs.JoinGraph.Refusal
import JvmFrames.Proofs.Labelling
import JvmFrames.Proofs.Likeness

/-!
# Errors about labels

Whether the labels of a body are in order is decided before anything is executed. After that every
label that is looked up is a join point and every `new` has the label right before it, so no step of
the machine fails for want of a label (`Machine.Fails.notAboutLabels`).
-/

namespace JvmFrames

/-! ## No instruction but `new` asks for a label

A failure for want of an allocation site comes from an action that fails for that cause by itself
(`Frame.cause_ne_of_perform`). A look at the tables shows that only `new` has such an action, and
only where no label is right before it. -/

/-- Every frame is like itself, and so is every failure but the one for want of an allocation
site. -/
def Likeness.sited : Likeness :=
  .ofEq (· ≠ .noAllocationSite) (fun _ h => h) Eq (fun _ _ h => by rw [h])
    (fun _ _ h _ => by rw [h]) (fun _ _ h _ => by rw [h]) (fun _ _ h _ _ => by rw [h])
    fun _ _ h _ _ => by rw [h]

/-- Only an action that fails on its own can fail for want of an allocation site. -/
theorem Frame.cause_ne_of_perform {f : Frame} {actions : List Action}
    {fault : Fault FrameError Frame} (hactions : .fail .noAllocationSite ∉ actions)
    (h : f.perform actions = .error fault) : fault.cause ≠ .noAllocationSite := by
  -- each action is like itself, so the failure is one that is like itself
  have hagree := Likeness.sited.agree_perform (f := f) rfl (List.forall₂_same.mpr fun a ha =>
    .refl (fun _ => rfl) a fun e he => ⟨rfl, fun heq => hactions (by rwa [← heq, ← he])⟩)
  rw [h] at hagree
  exact hagree.1.2

namespace Action

/-- Taking a declared value may fail, but not by itself. -/
theorem takeField_ne (t : FieldType) (e : FrameError) : takeField t ≠ .fail e := by
  cases t <;> nofun

/-- Taking arguments may fail, but not by itself. -/
theorem fail_not_mem_takeArguments (d : MethodDescriptor) (e : FrameError) :
    .fail e ∉ takeArguments d := by
  intro h
  obtain ⟨t, _, ht⟩ := List.mem_map.mp h
  exact takeField_ne t e ht

theorem fail_not_mem_pushResult (d : MethodDescriptor) (e : FrameError) :
    .fail e ∉ pushResult d := by
  unfold pushResult
  split <;> simp

/-- Taking a receiver, under construction or not, does not fail by itself. -/
theorem fail_not_mem_takeReceiver (this : ClassName) (kind : InvokeKind) (m : MethodRef)
    (e : FrameError) : .fail e ∉ takeReceiver this kind m := by
  unfold takeReceiver
  split
  · simp
  · split <;> simp

end Action

open JvmFrames.Action in
/-- An instruction has no action that fails for want of a site, unless it is a `new` without one. -/
theorem Instruction.fail_not_mem_actions {i : Instruction} {site : Option Label} (this : ClassName)
    (h : ∀ c, i = .new c → site.isSome = true) :
    .fail .noAllocationSite ∉ i.actions this site := by
  fun_cases Instruction.actions this site i <;>
    simp [takeExactly, fail_not_mem_takeArguments, fail_not_mem_pushResult,
      fail_not_mem_takeReceiver, (takeField_ne _ _).symm] at h ⊢

/-- Branches make no allocations. -/
theorem Branch.fail_not_mem_actions (result : Option FieldType) (b : Branch) :
    .fail .noAllocationSite ∉ b.actions result := by
  fun_cases Branch.actions result b <;> simp [Action.takeExactly, Action.expectResult]

/-! ## Nor do frames that do not merge

Merging fails for a depth or a value on the stack. -/

/-- Two values on the stack that do not merge fail for their types. -/
theorem mergeStackValue_ne (oracle : Oracle) (v w : VType) :
    mergeStackValue oracle v w ≠ .error .noAllocationSite := by
  unfold mergeStackValue
  dsimp only
  split <;> nofun

/-- Two stacks that do not merge fail for the first pair that does not. -/
theorem mapM_mergeStackValue_ne (oracle : Oracle) (pairs : List (VType × VType)) :
    pairs.mapM (fun (v, w) => mergeStackValue oracle v w) ≠ .error .noAllocationSite := by
  induction pairs with
  | nil => nofun
  | cons pair rest ih =>
    obtain ⟨v, w⟩ := pair
    rw [List.mapM_cons]
    intro h
    -- the first pair fails, or the rest does; there is nothing else to fail
    cases hhead : mergeStackValue oracle v w with
    | error e =>
      simp only [hhead] at h
      cases h
      exact mergeStackValue_ne oracle v w hhead
    | ok x =>
      simp only [hhead] at h
      cases htail : rest.mapM (fun (v, w) => mergeStackValue oracle v w) with
      | error e =>
        simp only [bind, Except.bind, htail] at h
        cases h
        exact ih htail
      | ok xs =>
        simp only [bind, Except.bind, htail] at h
        cases h

/-- Two frames that do not merge fail for their depths or for a pair of values. -/
theorem Frame.merge_ne (oracle : Oracle) (f g : Frame) :
    f.merge oracle g ≠ .error .noAllocationSite := by
  unfold merge
  cases f.sameDepth g with
  | false => nofun
  | true =>
    intro h
    -- depths are compared before values, and locals merge whatever they are
    cases hmap : (f.stack.reverse.zip g.stack.reverse).mapM
        (fun (v, w) => mergeStackValue oracle v w) with
    | error e =>
      simp only [bind, Except.bind, hmap] at h
      cases h
      exact mapM_mergeStackValue_ne oracle _ hmap
    | ok stack =>
      simp only [bind, Except.bind, hmap] at h
      cases h

/-! ## Faults of the graph

Feeding handlers and marking targets fail if a frame is refused by a join point, or if there is no
join point at a label. The latter does not happen, since the targets and handlers were made join
points when the graph was built. -/

/-- An error for want of a label, or for one too many. -/
def Error.isAboutLabels : Error → Bool
  | .unknownLabel _ | .duplicateLabel _ => true
  | .verifier _ _ _ cause | .incompatibleFrames _ _ _ cause => cause = .noAllocationSite
  | _ => false

namespace JoinGraph

variable {oracle : Oracle} {f : Frame} {g g' : JoinGraph} {l : Label} {p : Nat}
variable {fault : Fault Error JoinGraph}

/-- A frame is refused because it does not merge. -/
theorem Refusal.notAboutLabels (h : Refusal oracle f l g fault) :
    fault.cause.isAboutLabels = false := by
  obtain ⟨j, current, cause, seen, hj, hcurrent, hmerge⟩ := h
  apply decide_eq_false
  rintro rfl
  exact Frame.merge_ne oracle current f hmerge

/-- If handlers are fed in vain, one of them has refused the frame. -/
theorem notAboutLabels_of_feed (h : g.feed oracle p f = .error fault) :
    fault.cause.isAboutLabels = false := by
  obtain ⟨accepted, refusing, hinterrupted⟩ := interrupted_of_feedHandlers h
  obtain ⟨g₁, t, _, _, hrefusal⟩ := hinterrupted.refusal
  exact hrefusal.notAboutLabels

/-- Marking a join point fails only if a frame is refused, there or at a handler. -/
theorem notAboutLabels_of_mark (hjoin : g.isJoin l = true) (h : g.mark oracle l f = .error fault) :
    fault.cause.isAboutLabels = false := by
  rcases cases_of_mark_error h with ⟨hnone, _⟩ | hrefusal | ⟨j, k, _, _, _, hfeed⟩
  · rw [hjoin] at hnone
    cases hnone
  · exact hrefusal.notAboutLabels
  · exact notAboutLabels_of_feed hfeed

/-- Marking the targets of a branch fails only if a frame is refused: all of them stay join points
meanwhile. -/
theorem notAboutLabels_of_markTargets {labels : List Label} {work : List (Nat × Frame)}
    (hjoin : ∀ l ∈ labels, g.isJoin l = true)
    (h : markTargets oracle f labels g work = .error fault) : fault.cause.isAboutLabels = false := by
  induction labels generalizing g work with
  | nil => cases h
  | cons l rest ih =>
    rw [markTargets] at h
    cases hmark : g.mark oracle l f with
    | error fault' =>
      simp only [hmark] at h
      cases h
      exact notAboutLabels_of_mark (hjoin l (List.mem_cons_self ..)) hmark
    | ok result =>
      obtain ⟨g₁, changed⟩ := result
      have hgrow := (marks_of_mark hmark).grows
      -- the graph has changed by now, but no label stops being a join point
      have hrest : ∀ l ∈ rest, g₁.isJoin l = true := fun l hl => by
        rw [hgrow.isJoin]
        exact hjoin l (List.mem_cons_of_mem _ hl)
      simp only [hmark, bind, Except.bind] at h
      split at h
      · exact ih hrest h
      · exact ih hrest h

end JoinGraph

/-! ## Runs

The errors of a run are those of its last step (`Machine.Fails`), and the graph stays one that was
built for the body. -/

namespace Machine

variable {body : Body} {m m' : Machine} {e : Error}

/-- No step fails for want of a label, once the labels are in order. -/
theorem Fails.notAboutLabels (h : Fails body m e) (hbuilt : m.graph.Built body.code)
    (hsites : ∀ (p : Nat) c, body.code.nodes[p]? = some (.insn (.new c)) →
      (body.code.siteBefore? p).isSome = true) : e.isAboutLabels = false := by
  cases h with
  | offEnd p f hpath hnode => rfl
  | mark p f l fault hpath hnode hjoin hmark => exact JoinGraph.notAboutLabels_of_mark hjoin hmark
  | feed p f node fault hpath hnode hinsn hfeed => exact JoinGraph.notAboutLabels_of_feed hfeed
  | insn p f i fault hpath hnode hexec =>
    have hsite : ∀ c, i = .new c → (body.code.siteBefore? p).isSome = true := by
      rintro c rfl
      exact hsites p c hnode
    exact decide_eq_false
      (Frame.cause_ne_of_perform (Instruction.fail_not_mem_actions _ hsite) hexec)
  | branch p f b fault hpath hnode hexec =>
    exact decide_eq_false (Frame.cause_ne_of_perform (b.fail_not_mem_actions _) hexec)
  | targets p f b g f' fault hpath hnode hfeed hexec hmark =>
    -- the targets were join points from the start, and feeding handlers has not changed that
    have hgrow := JoinGraph.grows_feed hfeed
    refine JoinGraph.notAboutLabels_of_markTargets (fun l hl => ?_) hmark
    rw [hgrow.isJoin]
    exact hbuilt.targets p b hnode l hl

/-- A run that fails does so at some step, with the join points still in place. -/
theorem notAboutLabels_of_run {graph : JoinGraph} {fuel : Nat} (hrec : body.recovery = none)
    (hbuilt : graph.Built body.code)
    (hsites : ∀ (p : Nat) c, body.code.nodes[p]? = some (.insn (.new c)) →
      (body.code.siteBefore? p).isSome = true)
    (h : run body fuel (.start body graph) = some (m, some e)) : e.isAboutLabels = false := by
  have hmoves : ∀ m m', m.graph.Built body.code → Moves body m m' → m'.graph.Built body.code :=
    fun m m' hm hmove => hm.grows (hmove.grows hm)
  obtain ⟨last, hlast, ⟨_, hcontra⟩ | ⟨e', hstep, heq⟩⟩ := run_invariant hrec hmoves h hbuilt
  · cases hcontra
  · cases heq
    exact (fails_of_step hrec hstep).notAboutLabels hlast hsites

end Machine

namespace Analysis

variable {fuel : Nat} {oracle : Oracle} {settings : Settings} {method : Method} {code : Code}
variable {ranges : List ProtectedRange} {e : Error}

/-- The body whose allocations are labelled before it is analyzed. -/
def given (settings : Settings) (code : Code) : Code :=
  if settings.insertFrames then code.removeFrames else code

/-- Analysis comes to an end with this error. -/
def FailsWith (fuel : Nat) (oracle : Oracle) (settings : Settings) (method : Method) (code : Code)
    (ranges : List ProtectedRange) (e : Error) : Prop :=
  ∃ report, analyze fuel oracle settings method code ranges = some report
    ∧ report.result = .error e

/-- If the graph cannot be built, analysis fails with that error and takes no step. -/
theorem failsWith_iff_of_build_error {e' : Error}
    (hbuild : JoinGraph.build oracle (prepare settings code) ranges = .error e') :
    FailsWith fuel oracle settings method code ranges e ↔ e = e' := by
  unfold FailsWith
  rw [analyze_of_build_error hbuild]
  constructor
  · rintro ⟨report, hreport, herror⟩
    cases hreport
    exact (Except.error.inj herror).symm
  · rintro rfl
    exact ⟨_, rfl, rfl⟩

/-- After the run, only the maxima may be too large. -/
theorem notAboutLabels_of_conclude {m : Machine} (h : conclude method code m = .error e) :
    e.isAboutLabels = false := by
  unfold conclude at h
  by_cases hstack : maxWords < m.maxima.stack
  · rw [if_pos hstack] at h
    cases h
    rfl
  · by_cases hlocals : maxWords < m.maxima.locals
    · rw [if_neg hstack, if_pos hlocals] at h
      cases h
      rfl
    · rw [if_neg hstack, if_neg hlocals] at h
      cases h

/-- Once the graph is built, no error of analysis is about labels, be it of the run or of the
conclusion. -/
theorem notAboutLabels_of_build_ok {graph : JoinGraph} (hrec : settings.recovery = none)
    (hbuild : JoinGraph.build oracle (prepare settings code) ranges = .ok graph)
    (h : FailsWith fuel oracle settings method code ranges e) : e.isAboutLabels = false := by
  obtain ⟨report, hreport, herror⟩ := h
  rcases cases_of_analyze hreport with ⟨e', hcontra, _⟩ | ⟨graph', m, error, hbuild', hrun, rfl⟩
  · rw [hbuild] at hcontra
    cases hcontra
  · have hrec' : (bodyOf oracle settings method code).recovery = none := hrec
    -- labelling has put a label before each `new` that had none
    have hsites : ∀ (p : Nat) c, (prepare settings code).nodes[p]? = some (.insn (.new c)) →
        ((prepare settings code).siteBefore? p).isSome = true := fun p c hnew =>
      Option.isSome_iff_exists.mpr (exists_siteBefore?_prepare hnew)
    unfold Analysis.report at herror
    cases error with
    | some e' =>
      cases herror
      have hbuilt := (JoinGraph.built_of_build hbuild').1
      exact Machine.notAboutLabels_of_run hrec' hbuilt hsites hrun
    | none =>
      cases hconclude : conclude method (prepare settings code) m with
      | error e' =>
        simp only [bodyOf, hconclude] at herror
        cases herror
        exact notAboutLabels_of_conclude hconclude
      | ok result =>
        simp only [bodyOf, hconclude] at herror
        cases herror

/-- The labels of a body are checked before it is run, and never fail after that. Analysis reports a
label as placed twice exactly if some label is, and otherwise one as unknown exactly if a branch,
reachable or not, or a range refers to one that is not placed. In every other case the join points
are the targets of jumps and the handlers, each handler protects what its ranges enclose, and every
`new` is right behind a label; taking out the labels that were handed out gives back the body as it
was; and no error is about labels, however long the body is run. -/
theorem label_errors_decided_first (hrec : settings.recovery = none) (method : Method) :
    (∀ fuel, (∃ l, FailsWith fuel oracle settings method code ranges (.duplicateLabel l))
        ↔ ∃ l, (prepare settings code).PlacesTwice l)
      ∧ ((∀ l, ¬ (prepare settings code).PlacesTwice l) →
          (∀ fuel, (∃ l, FailsWith fuel oracle settings method code ranges (.unknownLabel l))
            ↔ ∃ l, (prepare settings code).Refers ranges l ∧ ¬ (prepare settings code).Places l)
          ∧ ((∀ l, (prepare settings code).Refers ranges l → (prepare settings code).Places l) →
              (∃ graph, JoinGraph.build oracle (prepare settings code) ranges = .ok graph
                ∧ graph.Reflects (prepare settings code) ranges)
              ∧ (∀ (p : Nat) c, (prepare settings code).nodes[p]? = some (.insn (.new c)) →
                  ∃ q l, p = q + 1 ∧ (prepare settings code).nodes[q]? = some (.label l))
              ∧ (prepare settings code).nodes.toList.filter (fun node =>
                  !node.placesIn (given settings code).nextLabel (prepare settings code).nextLabel)
                = (given settings code).nodes.toList
              ∧ ∀ fuel e, FailsWith fuel oracle settings method code ranges e →
                  e.isAboutLabels = false)) := by
  rcases JoinGraph.cases_of_build oracle (prepare settings code) ranges with
    ⟨l, htwice, hbuild⟩ | ⟨honce, ⟨l, hrefers, hunplaced, hbuild⟩ | ⟨hall, graph, hbuild⟩⟩
  · -- a label is placed twice
    refine ⟨fun fuel => ⟨fun _ => ⟨l, htwice⟩, fun _ => ⟨l, ?_⟩⟩, fun honce => (honce l htwice).elim⟩
    exact (failsWith_iff_of_build_error hbuild).mpr rfl
  · -- a label is not placed
    refine ⟨fun fuel => ⟨?_, fun ⟨l', htwice⟩ => (honce l' htwice).elim⟩, fun _ =>
      ⟨fun fuel => ⟨fun _ => ⟨l, hrefers, hunplaced⟩, fun _ => ⟨l, ?_⟩⟩, fun hall =>
        (hunplaced (hall l hrefers)).elim⟩⟩
    · rintro ⟨l', hfails⟩
      cases (failsWith_iff_of_build_error hbuild).mp hfails
    · exact (failsWith_iff_of_build_error hbuild).mpr rfl
  · -- all is well
    have hclean : ∀ fuel e, FailsWith fuel oracle settings method code ranges e →
        e.isAboutLabels = false := fun fuel e => notAboutLabels_of_build_ok hrec hbuild
    refine ⟨fun fuel => ⟨?_, fun ⟨l', htwice⟩ => (honce l' htwice).elim⟩, fun _ =>
      ⟨fun fuel => ⟨?_, fun ⟨l', hrefers, hunplaced⟩ => (hunplaced (hall l' hrefers)).elim⟩, fun _ =>
        ⟨⟨graph, hbuild, JoinGraph.reflects_of_build hbuild⟩, fun p c hnew => ?_, ?_, hclean⟩⟩⟩
    · rintro ⟨l', hfails⟩
      cases hclean fuel _ hfails
    · rintro ⟨l', hfails⟩
      cases hclean fuel _ hfails
    · obtain ⟨s, hs⟩ := exists_siteBefore?_prepare hnew
      obtain ⟨q, hq, hlabel⟩ := Code.node_of_siteBefore? hs
      exact ⟨q, s, hq, hlabel⟩
    · exact Code.filter_labelAllocations (JoinGraph.nodup_labels_of_build hbuild)

end Analysis

/-! ## Bodies with and without such errors

A label placed twice, and a jump to one that is not placed in code that is never reached. -/

namespace Misprint

def twice : Code := ⟨#[.label ⟨0⟩, .branch .returnVoid, .label ⟨0⟩], 1⟩

/-- A jump that is never reached has a target that is not placed. -/
def unplaced : Code := ⟨#[.branch .returnVoid, .branch (.goto ⟨0⟩)], 1⟩

end Misprint

namespace Analysis

/-- Both misprints are reported without a single step, and the countdown has none. -/
theorem label_errors_decided_first_misprints :
    (∃ l, FailsWith 0 Hierarchy.javaLang.common .plain Countdown.method Misprint.twice []
        (.duplicateLabel l))
      ∧ (∃ l, FailsWith 0 Hierarchy.javaLang.common .plain Countdown.method Misprint.unplaced []
          (.unknownLabel l))
      ∧ ∀ fuel e, FailsWith fuel Hierarchy.javaLang.common .plain Countdown.method Countdown.code
          Countdown.ranges e → e.isAboutLabels = false := by
  refine ⟨?_, ?_, ?_⟩
  · refine ((label_errors_decided_first rfl Countdown.method).1 0).mpr ⟨⟨0⟩, 0, 2, ?_, rfl, rfl⟩
    decide
  · have honce : ∀ l, ¬ (prepare .plain Misprint.unplaced).PlacesTwice l :=
      Code.nodup_labels_iff.mp List.nodup_nil
    refine (((label_errors_decided_first rfl Countdown.method).2 honce).1 0).mpr ⟨⟨0⟩, ?_, ?_⟩
    · exact Or.inl ⟨1, .goto ⟨0⟩, rfl, List.mem_singleton_self _⟩
    · intro hplaces
      cases Code.places_iff_mem_labels.mp hplaces
  · obtain ⟨graph, hbuild⟩ : ∃ graph, JoinGraph.build Hierarchy.javaLang.common
        (prepare .plain Countdown.code) Countdown.ranges = .ok graph := ⟨_, rfl⟩
    -- that the graph can be built says that the labels are in order
    obtain ⟨honce, hall⟩ := JoinGraph.exists_build_iff.mp ⟨graph, hbuild⟩
    obtain ⟨_, _, _, hclean⟩ :=
      ((label_errors_decided_first rfl Countdown.method).2 honce).2 hall
    exact hclean

end Analysis

end JvmFrames
