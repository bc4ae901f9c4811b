import JvmFrames.Proofs.Closure
import JvmFrames.Proofs.Hierarchy
import JvmFrames.Proofs.Machine.Flow
import JvmFrames.Proofs.Monotone

/-!
# Every body that has frames is accepted

`Body.Typing` says that frames given for some join labels fit a body: execution from them never
fails, and all that gets to a join label may be assigned to the frame given there. If there are such
frames, analysis does not fail, and each merged frame it comes to may be assigned to the given one.
So the merged frames say the most that can be said, in whatever order frames have arrived.

Every frame of a run stays below one that execution from the given frames comes to (`Typing.Below`).
Below such a frame an instruction that can be executed still can (`Frame.execute_mono`), and two
frames below a third one always merge (`Frame.Assignable.exists_merge`).
-/

namespace JvmFrames

/-- The body itself is at fault: an instruction cannot be executed, or frames do not merge. -/
def Error.Rejects : Error → Prop
  | .verifier .. => True
  | .incompatibleFrames .. => True
  | _ => False

/-- Frames for some labels fit a body. Straight execution from the start and from behind every join
label that has a frame may always go on, and its frames land at join labels that have one, and so do
the frames that exceptions carry on from these labels themselves. -/
structure Body.Typing (body : Body) (g : JoinGraph) (frames : Label → Option Frame) : Prop where
  admits : ∀ s t, body.Starts g frames s → body.Reaches g s t →
    body.Admits g (Lands body.oracle frames) t.1 t.2
  catches : ∀ l p f, g.isJoin l = true → g.position l = .ok p → frames l = some f →
    g.Catches (Lands body.oracle frames) p f

namespace Body.Typing

variable {body : Body} {g : JoinGraph} {frames : Label → Option Frame} {p : Nat} {f f' : Frame}

/-- A frame may be assigned to one that execution has at the same position. -/
def Below (body : Body) (g : JoinGraph) (frames : Label → Option Frame) (p : Nat) (f : Frame) :
    Prop :=
  ∃ s k, body.Starts g frames s ∧ body.Reaches g s (p, k) ∧ f.Assignable body.oracle k

theorem Below.forward {k : Frame} {s : Nat × Frame} (hs : body.Starts g frames s)
    (hreach : body.Reaches g s (p, k)) {k' : Frame} (hstep : body.Advances g (p, k) (p + 1, k'))
    (hf : f.Assignable body.oracle k') : Below body g frames (p + 1) f :=
  ⟨s, k', hs, hreach.tail hstep, hf⟩

/-- Below a frame on which an instruction can be executed, it can be executed as well. -/
theorem execute_below (hlaw : Oracle.Lawful body.oracle) {k k' : Frame} {this : ClassName}
    {site : Option Label} {i : Instruction} (hfk : f.Assignable body.oracle k)
    (h : k.execute this site i = .ok k') :
    ∃ f', f.execute this site i = .ok f' ∧ f'.Assignable body.oracle k' := by
  have hfollows : f.Follows body.oracle f.locals.words k := ⟨hfk, Nat.le_max_left ..⟩
  obtain ⟨f', hf', hbelow, _⟩ := Frame.execute_mono hlaw hfollows h
  exact ⟨f', hf', hbelow⟩

/-- Below a frame on which a branch can be executed, it can be executed as well. -/
theorem executeBranch_below (hlaw : Oracle.Lawful body.oracle) {k k' : Frame}
    {result : Option FieldType} {b : Branch} (hfk : f.Assignable body.oracle k)
    (h : k.executeBranch result b = .ok k') :
    ∃ f', f.executeBranch result b = .ok f' ∧ f'.Assignable body.oracle k' := by
  have hfollows : f.Follows body.oracle f.locals.words k := ⟨hfk, Nat.le_max_left ..⟩
  obtain ⟨f', hf', hbelow, _⟩ := Frame.executeBranch_mono hlaw hfollows h
  exact ⟨f', hf', hbelow⟩

/-- A handler that takes the exceptions of the larger frame takes those of the smaller one. -/
theorem lands_caught (hlaw : Oracle.Lawful body.oracle) {k : Frame} {l : Label} {t : RefType}
    (hcatch : g.Catches (Lands body.oracle frames) p k) (hfk : f.Assignable body.oracle k)
    (hl : l ∈ g.protectors p) (ht : g.catchType? l = some t) :
    Lands body.oracle frames l (f.caught t) := by
  obtain ⟨t', ht', hlands⟩ := hcatch l hl
  rw [ht] at ht'
  cases ht'
  exact hlands.of_assignable hlaw (hfk.caught t)

/-- Two frames that land at one label merge, and their merge lands there. -/
theorem lands_merge (hlaw : Oracle.Lawful body.oracle) {l : Label} {k : Frame}
    (hf : Lands body.oracle frames l f) (hk : Lands body.oracle frames l k) :
    ∃ m, f.merge body.oracle k = .ok m ∧ Lands body.oracle frames l m := by
  obtain ⟨top, htop, hftop⟩ := hf
  obtain ⟨top', htop', hktop⟩ := hk
  rw [htop] at htop'
  cases htop'
  obtain ⟨m, hm, hleast⟩ := hftop.exists_merge hlaw hktop
  exact ⟨m, hm, top, htop, hleast⟩

/-- The merged frame of a join point lands if all that arrives does. -/
theorem lands_of_receives (hlaw : Oracle.Lawful body.oracle) {l : Label} {j k : JoinPoint}
    (hj : ∀ m, j.merged = some m → Lands body.oracle frames l m) (hf : Lands body.oracle frames l f)
    (hk : j.Receives body.oracle f k) :
    ∀ m, k.merged = some m → Lands body.oracle frames l m := by
  intro m hm
  cases hk with
  | first _ _ =>
    cases hm
    exact hf
  | joined current _ _ hcurrent hmerge =>
    cases hm
    obtain ⟨m', hm', hlands⟩ := lands_merge hlaw (hj current hcurrent) hf
    rw [hmerge] at hm'
    cases hm'
    exact hlands

/-- The frames of a run stay below those of execution from the given frames. -/
theorem flow (hlaw : Oracle.Lawful body.oracle) (htyping : body.Typing g frames)
    (hbuilt : g.Built body.code) (hfresh : g.Fresh) :
    body.Flow g (Below body g frames) (Lands body.oracle frames)
      (fun l j => ∀ m, j.merged = some m → Lands body.oracle frames l m) where
  built := hbuilt
  fresh := fun l j hj m hm => by
    rw [(hfresh l j hj).1] at hm
    cases hm
  -- at the start both frames are the one that the parameters give
  entry := ⟨_, _, .entry, .refl, .refl _⟩
  pass := fun p l f hnode hjoin ⟨s, k, hs, hreach, hfk⟩ =>
    .forward hs hreach (.label p k l hnode hjoin) hfk
  arrive := fun p l f hnode hjoin ⟨s, k, hs, hreach, hfk⟩ =>
    ((htyping.admits s _ hs hreach).arrives_label hnode hjoin).of_assignable hlaw hfk
  frame := fun p x f hnode ⟨s, k, hs, hreach, hfk⟩ =>
    .forward hs hreach (.frame p k x hnode) hfk
  insn := fun p i f f' hnode ⟨s, k, hs, hreach, hfk⟩ hexec => by
    obtain ⟨k', hk'⟩ := (htyping.admits s _ hs hreach).executes hnode
    obtain ⟨f'', hf'', hbelow⟩ := execute_below hlaw hfk hk'
    rw [hexec] at hf''
    cases hf''
    exact .forward hs hreach (.insn p k k' i hnode hk') hbelow
  branch := fun p b f f' hnode ⟨s, k, hs, hreach, hfk⟩ hexec => by
    obtain ⟨k', hk', htargets⟩ := (htyping.admits s _ hs hreach).executes_branch hnode
    obtain ⟨f'', hf'', hbelow⟩ := executeBranch_below hlaw hfk hk'
    rw [hexec] at hf''
    cases hf''
    exact ⟨fun t ht => (htargets t ht).of_assignable hlaw hbelow,
      fun hfall => .forward hs hreach (.branch p k k' b hnode hfall hk') hbelow⟩
  caught := fun p node f l t hnode hinsn ⟨s, k, hs, hreach, hfk⟩ hl ht =>
    lands_caught hlaw ((htyping.admits s _ hs hreach).catches hnode hinsn) hfk hl ht
  -- a label is no instruction, so what it carries to handlers is required on its own
  caughtJoin := fun p l f l' t hnode hjoin ⟨k, hk, hfk⟩ hl ht _ =>
    lands_caught hlaw (htyping.catches l p k hjoin ((hbuilt.placed l p).mpr hnode) hk) hfk hl ht
  receive := fun l j k f hj hf hk => lands_of_receives hlaw hj hf hk
  pending := fun l j b hj => hj
  -- execution goes on from the given frame, and the machine from the merged one below it
  resume := fun p l j f hnode hjoin hj hf => by
    obtain ⟨k, hk, hfk⟩ := hj f hf
    exact ⟨_, k, .join l p k hjoin ((hbuilt.placed l p).mpr hnode) hk, .refl, hfk⟩

/-- No instruction fails on a frame below those of execution. -/
theorem not_stuck (hlaw : Oracle.Lawful body.oracle) (htyping : body.Typing g frames)
    (hf : Below body g frames p f) : ¬ body.Stuck p f := by
  obtain ⟨s, k, hs, hreach, hfk⟩ := hf
  have hadmits := htyping.admits s _ hs hreach
  obtain ⟨node, hnode⟩ := hadmits.exists_node
  unfold Stuck
  rw [hnode]
  cases node with
  | label _ => exact not_false
  | frame _ => exact not_false
  | insn i =>
    rintro ⟨fault, hfault⟩
    -- it succeeds on the frame of execution, hence on the one below
    obtain ⟨k', hk'⟩ := hadmits.executes hnode
    obtain ⟨f', hf', _⟩ := execute_below hlaw hfk hk'
    rw [hfault] at hf'
    cases hf'
  | branch b =>
    rintro ⟨fault, hfault⟩
    obtain ⟨k', hk', _⟩ := hadmits.executes_branch hnode
    obtain ⟨f', hf', _⟩ := executeBranch_below hlaw hfk hk'
    rw [hfault] at hf'
    cases hf'

/-- Frames that land at one label never clash. -/
theorem not_clash (hlaw : Oracle.Lawful body.oracle) :
    ¬ body.Clash (Lands body.oracle frames)
      (fun l j => ∀ m, j.merged = some m → Lands body.oracle frames l m) := by
  rintro ⟨l, j, f, current, cause, hj, hf, hcurrent, hmerge⟩
  obtain ⟨m, hm, _⟩ := lands_merge hlaw (hj current hcurrent) hf
  rw [hmerge] at hm
  cases hm

/-- A run on a body that has frames does not fail, and stays below the frames. -/
theorem run_ok (hlaw : Oracle.Lawful body.oracle) (htyping : body.Typing g frames)
    (hbuilt : g.Built body.code) (hfresh : g.Fresh) (hrec : body.recovery = none) {fuel : Nat}
    {m : Machine} {error : Option Error}
    (hrun : Machine.run body fuel (.start body g) = some (m, error)) :
    error = none ∧ ∀ l f, m.graph.frameAt? l = some f → Lands body.oracle frames l f := by
  have hflow := htyping.flow hlaw hbuilt hfresh
  obtain ⟨last, hlast, ⟨hstep, rfl⟩ | ⟨e, hstep, rfl⟩⟩ :=
    Machine.run_invariant hrec (fun _ _ => hflow.moves) hrun hflow.start
  · obtain ⟨rfl, _⟩ := Machine.idle_of_step hrec hstep
    refine ⟨rfl, fun l f hf => ?_⟩
    obtain ⟨j, hj, hmerged⟩ := Option.bind_eq_some_iff.mp hf
    exact hlast.joins l j hj f hmerged
  · -- a run that stops in the middle has met one of the two things that cannot be
    rcases hflow.fails hlast (Machine.fails_of_step hrec hstep) with ⟨p, f, hf, hstuck⟩ | hclash
    · exact absurd hstuck (htyping.not_stuck hlaw hf)
    · exact absurd hclash (not_clash hlaw)

/-- Frames fit if some list of states has all those that execution comes to, and execution may go on
from each of them. This can be evaluated. -/
theorem of_states (hbuilt : g.Built body.code) (states : List (Nat × Frame))
    (hstates : (0, Frame.entry body.method) ∈ states
      ∧ (∀ j ∈ g.joins, ∀ f ∈ frames j.label, (j.position + 1, f) ∈ states
          ∧ g.Catches (Lands body.oracle frames) j.position f)
      ∧ ∀ s ∈ states, body.Admits g (Lands body.oracle frames) s.1 s.2
          ∧ ∀ t ∈ body.next? g s, t ∈ states) : body.Typing g frames := by
  obtain ⟨hentry, hjoins, hsteps⟩ := hstates
  have hjoin : ∀ l p f, g.isJoin l = true → g.position l = .ok p → frames l = some f →
      (p + 1, f) ∈ states ∧ g.Catches (Lands body.oracle frames) p f := by
    intro l p f hl hp hf
    obtain ⟨j, hj⟩ := JoinGraph.exists_join?_of_isJoin hl
    rw [← JoinGraph.label_of_join? hj] at hf
    rw [hbuilt.position l j hj] at hp
    cases hp
    exact hjoins j (JoinGraph.mem_of_join? hj) f hf
  have hstart : ∀ s, body.Starts g frames s → s ∈ states := by
    intro s hs
    cases hs with
    | entry => exact hentry
    | join l p f hl hp hf => exact (hjoin l p f hl hp hf).1
  refine ⟨fun s t hs hreach => ?_, fun l p f hl hp hf => (hjoin l p f hl hp hf).2⟩
  -- execution never leaves the list; the induction is on its steps
  have ht : t ∈ states := by
    induction hreach with
    | refl => exact hstart s hs
    | tail _ hstep ih => exact (hsteps _ ih).2 _ hstep.next?_eq
  exact (hsteps t ht).1

end Body.Typing

/-! ## Other errors

Analysis may also fail for labels that are not placed and for maxima that are too large. Neither
says anything about the types of the body. -/

/-- A result that is no rejection: a value, or an error that is about something else. -/
def Error.Spares {α : Type} (result : Except Error α) : Prop :=
  ∀ e, result = .error e → ¬ e.Rejects

namespace Error.Spares

variable {α β : Type}

theorem ok (a : α) : Error.Spares (.ok a) := fun e he => by cases he

/-- A sequence of steps rejects nothing if none of its steps does. -/
theorem bind {x : Except Error α} {f : α → Except Error β} (hx : Error.Spares x)
    (hf : ∀ a, Error.Spares (f a)) : Error.Spares (x >>= f) := by
  cases x with
  | error e' =>
    intro e he
    cases he
    exact hx e' rfl
  | ok a => exact hf a

end Error.Spares

namespace JoinGraph

open Error (Spares)

/-- Looking up a label that is not placed is no rejection. -/
theorem spares_position (g : JoinGraph) (l : Label) : Spares (g.position l) := by
  unfold position
  split
  · exact .ok _
  · intro e he
    cases he
    exact not_false

theorem spares_addTargets (g : JoinGraph) (labels : List Label) : Spares (g.addTargets labels) := by
  induction labels generalizing g with
  | nil => exact .ok g
  | cons l rest ih => exact (g.spares_position l).bind fun p => ih _

/-- Adding a protected range fails for labels only. -/
theorem spares_addRange (oracle : Oracle) (g : JoinGraph) (range : ProtectedRange) :
    Spares (g.addRange oracle range) := by
  refine (g.spares_position _).bind fun start => (g.spares_position _).bind fun stop =>
    (g.spares_position _).bind fun entry => ?_
  simp only
  split
  · exact .ok _
  · exact .ok _

/-- Finding the join points fails for labels only. -/
theorem spares_build (oracle : Oracle) (code : Code) (ranges : List ProtectedRange) :
    Spares (build oracle code ranges) := by
  have hplacements : Spares (ofPlacements code) := by
    unfold ofPlacements
    simp only
    split
    · intro e he
      cases he
      exact not_false
    · exact .ok _
  have hranges : ∀ g : JoinGraph, Spares (g.addRanges oracle ranges) := by
    induction ranges with
    | nil => exact fun g => .ok g
    | cons range rest ih => exact fun g => (g.spares_addRange oracle range).bind ih
  exact (hplacements.bind fun g => g.spares_addTargets _).bind hranges

end JoinGraph

namespace Analysis

variable {fuel : Nat} {h : Hierarchy} {settings : Settings} {method : Method} {code : Code}
variable {ranges : List ProtectedRange} {report : Report} {frames : Label → Option Frame}

/-- Maxima that are too large are no rejection. -/
theorem spares_conclude (method : Method) (code : Code) (m : Machine) :
    Error.Spares (conclude method code m) := by
  unfold conclude
  split
  · intro e he
    cases he
    exact not_false
  · split
    · intro e he
      cases he
      exact not_false
    · exact .ok _

/-- The report on a run that went through is no rejection. -/
theorem spares_report (settings : Settings) (body : Body) (m : Machine) :
    Error.Spares (Analysis.report settings body m none).result := by
  have hconclude := spares_conclude body.method body.code m
  unfold Analysis.report
  simp only
  split
  · next e he =>
    rw [he] at hconclude
    intro e' he'
    cases he'
    exact hconclude e rfl
  · exact .ok _

/-- A body that frames fit is never rejected: no instruction fails, and all frames that meet at a
join point merge. The labels that analysis reaches are among those that have a frame, and its merged
frames may be assigned to the given ones. -/
theorem typed_bodies_accepted_below_typing (hwf : h.WellFormed) (hrec : settings.recovery = none)
    (htyping : ∀ graph, JoinGraph.build h.common (prepare settings code) ranges = .ok graph →
      (bodyOf h.common settings method code).Typing graph frames)
    (hanalyze : analyze fuel h.common settings method code ranges = some report) :
    Error.Spares report.result
      ∧ ∀ graph m error, JoinGraph.build h.common (prepare settings code) ranges = .ok graph →
          Machine.run (bodyOf h.common settings method code) fuel
            (.start (bodyOf h.common settings method code) graph) = some (m, error) →
          error = none ∧ ∀ l f, m.graph.frameAt? l = some f → Lands h.common frames l f := by
  -- the frames fit whatever graph was built, so they fit this one
  have hrun_ok : ∀ graph m error,
      JoinGraph.build h.common (prepare settings code) ranges = .ok graph →
      Machine.run (bodyOf h.common settings method code) fuel
        (.start (bodyOf h.common settings method code) graph) = some (m, error) →
      error = none ∧ ∀ l f, m.graph.frameAt? l = some f → Lands h.common frames l f := by
    intro graph m error hbuild hrun
    obtain ⟨hbuilt, hfresh⟩ := JoinGraph.built_of_build hbuild
    exact (htyping graph hbuild).run_ok hwf.lawful hbuilt hfresh hrec hrun
  refine ⟨?_, hrun_ok⟩
  rcases cases_of_analyze hanalyze with ⟨e, hbuild, herror⟩ | ⟨graph, m, error, hbuild, hrun, rfl⟩
  · intro e' he'
    rw [herror] at he'
    cases he'
    exact JoinGraph.spares_build _ _ _ e hbuild
  · rw [(hrun_ok graph m error hbuild hrun).1]
    exact spares_report settings _ m

end Analysis

namespace Countdown

/-- In the loop the second parameter is a `String` at first and a class later on. -/
def looped : WordSeq VType := .ofList [.integer, .object .javaObject]

def frames (l : Label) : Option Frame :=
  [(⟨0⟩, ⟨looped, []⟩), (⟨1⟩, ⟨looped, []⟩), (⟨2⟩, ⟨looped, [.object .throwable]⟩)].lookup l

def states : List (Nat × Frame) :=
  let stored : WordSeq VType := .ofList [.integer, .object (.object .javaClass)]
  [(0, Frame.entry method), (1, ⟨looped, []⟩), (2, ⟨looped, [.integer]⟩), (3, ⟨looped, []⟩),
    (4, ⟨looped, []⟩), (5, ⟨looped, [.object (.object .javaClass)]⟩), (6, ⟨stored, []⟩),
    (8, ⟨looped, []⟩), (10, ⟨looped, [.object .throwable]⟩), (11, ⟨looped, []⟩)]

/-- The frames fit the countdown, since its few states can be listed. -/
theorem typing (graph : JoinGraph) (hbuild : JoinGraph.build Hierarchy.javaLang.common
      (Analysis.prepare .plain code) ranges = .ok graph) :
    (Analysis.bodyOf Hierarchy.javaLang.common .plain method code).Typing graph frames := by
  have hstates : ∀ g ∈ (JoinGraph.build Hierarchy.javaLang.common (Analysis.prepare .plain code)
      ranges).toOption,
      (0, Frame.entry method) ∈ states
        ∧ (∀ j ∈ g.joins, ∀ f ∈ frames j.label, (j.position + 1, f) ∈ states
            ∧ g.Catches (Lands Hierarchy.javaLang.common frames) j.position f)
        ∧ ∀ s ∈ states,
            (Analysis.bodyOf Hierarchy.javaLang.common .plain method code).Admits g
              (Lands Hierarchy.javaLang.common frames) s.1 s.2
            ∧ ∀ t ∈ (Analysis.bodyOf Hierarchy.javaLang.common .plain method code).next? g s,
                t ∈ states := by decide +kernel
  exact .of_states (JoinGraph.built_of_build hbuild).1 states
    (hstates graph (by rw [hbuild]; rfl))

end Countdown

/-- The countdown is not rejected, whatever comes first at its labels. -/
theorem Analysis.typed_bodies_accepted_below_typing_countdown :
    ∃ report, analyze 80 Hierarchy.javaLang.common .plain Countdown.method Countdown.code
        Countdown.ranges = some report
      ∧ (∀ graph, JoinGraph.build Hierarchy.javaLang.common (prepare .plain Countdown.code)
          Countdown.ranges = .ok graph →
        (bodyOf Hierarchy.javaLang.common .plain Countdown.method Countdown.code).Typing graph
          Countdown.frames)
      ∧ Error.Spares report.result
      ∧ ∀ graph m error, JoinGraph.build Hierarchy.javaLang.common (prepare .plain Countdown.code)
            Countdown.ranges = .ok graph →
          Machine.run (bodyOf Hierarchy.javaLang.common .plain Countdown.method Countdown.code) 80
            (.start (bodyOf Hierarchy.javaLang.common .plain Countdown.method Countdown.code) graph)
            = some (m, error) →
          error = none
            ∧ ∀ l f, m.graph.frameAt? l = some f →
                Lands Hierarchy.javaLang.common Countdown.frames l f := by
  obtain ⟨report, analysis, hanalyze, _⟩ := Countdown.analyze_ok
  exact ⟨report, hanalyze, Countdown.typing, typed_bodies_accepted_below_typing
    Hierarchy.wellFormed_javaLang rfl Countdown.typing hanalyze⟩

end JvmFrames
