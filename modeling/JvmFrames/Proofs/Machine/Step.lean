import JvmFrames.Proofs.JoinGraph.Growth

/-!
# What one step of the machine does

Without a recovery, a step either moves the machine in one of a few ways (`Machine.Moves`), or fails
for one of a few reasons (`Machine.Fails`), or finds nothing left to do. Invariants of a run are
proved against these lists, and `Machine.run_invariant` lifts them from one step to the whole run.
-/

namespace JvmFrames

namespace Machine

variable {body : Body} {m m' : Machine}

/-- The ways in which a machine goes on. -/
inductive Moves (body : Body) (m : Machine) : Machine → Prop where
  /-- The latest path still to follow is taken up. -/
  | take (p : Nat) (f : Frame) (work : List (Nat × Frame)) (hpath : m.path = none)
      (hwork : m.work = (p, f) :: work) : Moves body m ({ m with work }.follow p f)
  /-- No path is left, and a handler whose entry frame has changed is taken up. -/
  | enter (j : JoinPoint) (f : Frame) (hpath : m.path = none) (hwork : m.work = [])
      (hmem : j ∈ m.graph.joins) (hpending : j.isPending = true) (hmerged : j.merged = some f) :
      Moves body m
        ({ m with graph := m.graph.setJoin (j.withPending false) }.follow (j.position + 1) f)
  /-- A label that nothing leads to. -/
  | label (p : Nat) (f : Frame) (l : Label) (hpath : m.path = some (p, f))
      (hnode : body.code.nodes[p]? = some (.label l)) (hjoin : m.graph.isJoin l = false) :
      Moves body m (m.moveTo (p + 1) f)
  | frame (p : Nat) (f : Frame) (s : StackMapFrame VType) (hpath : m.path = some (p, f))
      (hnode : body.code.nodes[p]? = some (.frame s)) : Moves body m (m.moveTo (p + 1) f)
  /-- Nothing new arrives at a join point, so the path ends. -/
  | halt (p : Nat) (f : Frame) (l : Label) (g : JoinGraph) (hpath : m.path = some (p, f))
      (hnode : body.code.nodes[p]? = some (.label l)) (hjoin : m.graph.isJoin l = true)
      (hmark : JoinGraph.Marks body.oracle f l m.graph g false) :
      Moves body m { m with graph := g }.leave
  /-- A join point changes, and the path goes on from there with the merged frame. -/
  | join (p : Nat) (f : Frame) (l : Label) (g : JoinGraph) (k : JoinPoint) (merged : Frame)
      (hpath : m.path = some (p, f)) (hnode : body.code.nodes[p]? = some (.label l))
      (hjoin : m.graph.isJoin l = true) (hmark : JoinGraph.Marks body.oracle f l m.graph g true)
      (hk : g.join? l = some k) (hmerged : k.merged = some merged) :
      Moves body m ({ m with graph := g }.moveTo (p + 1) merged)
  | insn (p : Nat) (f : Frame) (i : Instruction) (g : JoinGraph) (f' : Frame)
      (hpath : m.path = some (p, f)) (hnode : body.code.nodes[p]? = some (.insn i))
      (hfeed : m.graph.feed body.oracle p f = .ok g)
      (hexec : f.execute body.method.className (body.code.siteBefore? p) i = .ok f') :
      Moves body m ({ m with graph := g }.follow (p + 1) f')
  | branch (p : Nat) (f : Frame) (b : Branch) (g g' : JoinGraph) (f' : Frame)
      (work : List (Nat × Frame))
      (hpath : m.path = some (p, f)) (hnode : body.code.nodes[p]? = some (.branch b))
      (hfeed : m.graph.feed body.oracle p f = .ok g)
      (hexec : f.executeBranch body.method.descriptor.result b = .ok f')
      (hmark : JoinGraph.markTargets body.oracle f' b.targets g m.work = .ok (g', work)) :
      Moves body m
        (if b.fallsThrough then { m with graph := g', work }.follow (p + 1) f'
          else ({ m with graph := g', work }.follow (p + 1) f').leave)

/-- The reasons for which a machine fails. -/
inductive Fails (body : Body) (m : Machine) : Error → Prop where
  | offEnd (p : Nat) (f : Frame) (hpath : m.path = some (p, f))
      (hnode : body.code.nodes[p]? = none) :
      Fails body m (.verifier p .endOfCode f.snapshot .fallsOffEnd)
  | mark (p : Nat) (f : Frame) (l : Label) (fault : Fault Error JoinGraph)
      (hpath : m.path = some (p, f)) (hnode : body.code.nodes[p]? = some (.label l))
      (hjoin : m.graph.isJoin l = true)
      (hmark : m.graph.mark body.oracle l f = .error fault) : Fails body m fault.cause
  | feed (p : Nat) (f : Frame) (node : Node) (fault : Fault Error JoinGraph)
      (hpath : m.path = some (p, f)) (hnode : body.code.nodes[p]? = some node)
      (hinsn : node.isInstruction = true)
      (hfeed : m.graph.feed body.oracle p f = .error fault) : Fails body m fault.cause
  | insn (p : Nat) (f : Frame) (i : Instruction) (fault : Fault FrameError Frame)
      (hpath : m.path = some (p, f)) (hnode : body.code.nodes[p]? = some (.insn i))
      (hexec : f.execute body.method.className (body.code.siteBefore? p) i = .error fault) :
      Fails body m (.verifier p (.node (.insn i)) f.snapshot fault.cause)
  | branch (p : Nat) (f : Frame) (b : Branch) (fault : Fault FrameError Frame)
      (hpath : m.path = some (p, f)) (hnode : body.code.nodes[p]? = some (.branch b))
      (hexec : f.executeBranch body.method.descriptor.result b = .error fault) :
      Fails body m (.verifier p (.node (.branch b)) f.snapshot fault.cause)
  | targets (p : Nat) (f : Frame) (b : Branch) (g : JoinGraph) (f' : Frame)
      (fault : Fault Error JoinGraph)
      (hpath : m.path = some (p, f)) (hnode : body.code.nodes[p]? = some (.branch b))
      (hfeed : m.graph.feed body.oracle p f = .ok g)
      (hexec : f.executeBranch body.method.descriptor.result b = .ok f')
      (hmark : JoinGraph.markTargets body.oracle f' b.targets g m.work = .error fault) :
      Fails body m fault.cause

end Machine

/-- A handler that is next in turn is marked, and its mark is all that is taken away. -/
theorem JoinGraph.nextPending?_eq_some {g g' : JoinGraph} {l : Label} {p : Nat} {f : Frame}
    (h : g.nextPending? = some ((l, p, f), g')) :
    ∃ j, j ∈ g.joins ∧ j.isPending = true ∧ j.merged = some f ∧ p = j.position + 1
      ∧ g' = g.setJoin (j.withPending false) := by
  unfold nextPending? at h
  cases hfind : g.joins.find? JoinPoint.isPending with
  | none => rw [hfind] at h; cases h
  | some j =>
    rw [hfind] at h
    obtain ⟨f', hmerged, heq⟩ := Option.map_eq_some_iff.mp h
    cases heq
    exact ⟨j, List.mem_of_find?_eq_some hfind, List.find?_some hfind, hmerged, rfl, rfl⟩

namespace Machine

variable {body : Body} {m m' : Machine}

/-! ## What a step does

One case for each kind of node, and two for a machine without a path. `explains_step` is all that
later proofs use of `Machine.step`. -/

/-- The verdict of a step for what it is: a move, the end of the run, or a failure. -/
def Explains (body : Body) (m : Machine) : Verdict → Prop
  | .running m' => Moves body m m'
  | .finished m' => m' = m ∧ m.path = none ∧ m.work = [] ∧ m.graph.nextPending? = none
  | .failed _ e => Fails body m e

section

variable {p : Nat} {f : Frame} {node : Node} {outcome : Frame.Outcome Frame} {g : JoinGraph}

/-- An instruction is not executed if a handler refuses the frame before it. -/
theorem perform_of_feed_error {fault : Fault Error JoinGraph}
    (hfeed : m.graph.feed body.oracle p f = .error fault) :
    m.perform body p node f outcome = ({ m with graph := fault.left }, .error fault.cause) := by
  rw [perform, hfeed]

/-- An instruction that succeeds leaves its frame, with the handlers fed. -/
theorem perform_ok {f' : Frame} (hfeed : m.graph.feed body.oracle p f = .ok g) :
    m.perform body p node f (.ok f') = ({ m with graph := g }, .ok f') := by
  rw [perform, hfeed]

/-- With nobody to recover, a failed instruction is an error. -/
theorem perform_error {fault : Fault FrameError Frame} (hrec : body.recovery = none)
    (hfeed : m.graph.feed body.oracle p f = .ok g) :
    m.perform body p node f (.error fault)
      = ({ m with graph := g }, .error (.verifier p (.node node) f.snapshot fault.cause)) := by
  rw [perform, hfeed]
  simp only [recover, hrec]

/-- What happens at a label is explained. -/
theorem explains_passLabel {l : Label} (hpath : m.path = some (p, f))
    (hnode : body.code.nodes[p]? = some (.label l)) :
    m.Explains body (m.passLabel body p f l) := by
  unfold passLabel
  cases hjoin : m.graph.isJoin l with
  | false => exact Moves.label p f l hpath hnode hjoin
  | true =>
    rw [if_pos rfl]
    cases hmark : m.graph.mark body.oracle l f with
    | error fault => exact Fails.mark p f l fault hpath hnode hjoin hmark
    | ok result =>
      obtain ⟨g, changed⟩ := result
      have hmarks := JoinGraph.marks_of_mark hmark
      cases changed with
      | false => exact Moves.halt p f l g hpath hnode hjoin hmarks
      | true =>
        -- the frame to go on with is the merged one, which a changed join point has
        obtain ⟨k, hk, _⟩ := hmarks.seen
        obtain ⟨merged, hmerged, _⟩ := hmarks.alerts_true hk
        simp only [JoinGraph.frameAt?_of_join? hk, hmerged, Option.getD_some]
        exact Moves.join p f l g k merged hpath hnode hjoin hmarks hk hmerged

/-- What happens at an instruction is explained. -/
theorem explains_passInsn {i : Instruction} (hrec : body.recovery = none)
    (hpath : m.path = some (p, f)) (hnode : body.code.nodes[p]? = some (.insn i)) :
    m.Explains body (m.passInsn body p f i) := by
  unfold passInsn
  -- feeding the handlers may fail before the instruction gets to be executed
  cases hfeed : m.graph.feed body.oracle p f with
  | error fault =>
    simp only [perform_of_feed_error hfeed]
    exact Fails.feed p f (.insn i) fault hpath hnode rfl hfeed
  | ok g =>
    cases hexec : f.execute body.method.className (body.code.siteBefore? p) i with
    | ok f' =>
      simp only [hexec, perform_ok hfeed]
      exact Moves.insn p f i g f' hpath hnode hfeed hexec
    | error fault =>
      simp only [hexec, perform_error hrec hfeed]
      exact Fails.insn p f i fault hpath hnode hexec

/-- What happens at a branch is explained. -/
theorem explains_passBranch {b : Branch} (hrec : body.recovery = none)
    (hpath : m.path = some (p, f)) (hnode : body.code.nodes[p]? = some (.branch b)) :
    m.Explains body (m.passBranch body p f b) := by
  unfold passBranch
  cases hfeed : m.graph.feed body.oracle p f with
  | error fault =>
    simp only [perform_of_feed_error hfeed]
    exact Fails.feed p f (.branch b) fault hpath hnode rfl hfeed
  | ok g =>
    cases hexec : f.executeBranch body.method.descriptor.result b with
    | error fault =>
      simp only [hexec, perform_error hrec hfeed]
      exact Fails.branch p f b fault hpath hnode hexec
    | ok f' =>
      simp only [hexec, perform_ok hfeed, follow]
      -- the branch itself is done; what may still fail is the arrival at its targets
      cases hmark : JoinGraph.markTargets body.oracle f' b.targets g m.work with
      | error fault => exact Fails.targets p f b g f' fault hpath hnode hfeed hexec hmark
      | ok result => exact Moves.branch p f b g result.1 f' result.2 hpath hnode hfeed hexec hmark

end

/-- Every step is explained, if nothing is recovered from. -/
theorem explains_step (hrec : body.recovery = none) (m : Machine) :
    m.Explains body (m.step body) := by
  unfold step
  cases hpath : m.path with
  | none =>
    -- without a path: one that is left over comes first, then a handler that waits
    cases hwork : m.work with
    | cons first work =>
      obtain ⟨p, f⟩ := first
      have hmoves : Moves body m _ := .take p f work hpath hwork
      simpa only [hpath, Explains] using hmoves
    | nil =>
      cases hnext : m.graph.nextPending? with
      | none => exact ⟨rfl, hpath, hwork, hnext⟩
      | some next =>
        obtain ⟨⟨l, p, f⟩, g⟩ := next
        obtain ⟨j, hmem, hpending, hmerged, rfl, rfl⟩ := JoinGraph.nextPending?_eq_some hnext
        have hmoves : Moves body m _ := .enter j f hpath hwork hmem hpending hmerged
        simpa only [hpath, hwork, Explains] using hmoves
  | some state =>
    obtain ⟨p, f⟩ := state
    cases hnode : body.code.nodes[p]? with
    | none =>
      simp only [hnode]
      exact Fails.offEnd p f hpath hnode
    | some node =>
      simp only [hnode]
      cases node with
      | frame s => exact Moves.frame p f s hpath hnode
      | label l => exact explains_passLabel hpath hnode
      | insn i => exact explains_passInsn hrec hpath hnode
      | branch b => exact explains_passBranch hrec hpath hnode

theorem moves_of_step (hrec : body.recovery = none) (h : m.step body = .running m') :
    Moves body m m' := by
  have hexplains := explains_step hrec m
  rw [h] at hexplains
  exact hexplains

theorem fails_of_step (hrec : body.recovery = none) {e : Error} (h : m.step body = .failed m' e) :
    Fails body m e := by
  have hexplains := explains_step hrec m
  rw [h] at hexplains
  exact hexplains

/-- A machine that has finished follows no path, has none left, and has no handler to take up. -/
theorem idle_of_step (hrec : body.recovery = none) (h : m.step body = .finished m') :
    m' = m ∧ m.path = none ∧ m.work = [] ∧ m.graph.nextPending? = none := by
  have hexplains := explains_step hrec m
  rw [h] at hexplains
  exact hexplains

/-! ## Runs

An invariant has to be kept by moves only, since a run ends at the first step that is none. -/

/-- What every move keeps holds of the last machine of a run, the one that finishes or fails. -/
theorem run_invariant {Inv : Machine → Prop} (hrec : body.recovery = none)
    (hmove : ∀ m m', Inv m → Moves body m m' → Inv m') {fuel : Nat} {result : Option Error}
    (h : run body fuel m = some (m', result)) (hm : Inv m) :
    ∃ last, Inv last
      ∧ ((last.step body = .finished m' ∧ result = none)
        ∨ ∃ e, last.step body = .failed m' e ∧ result = some e) := by
  induction fuel generalizing m with
  | zero => cases h
  | succ fuel ih =>
    rw [run] at h
    -- the last step is the one that does not go on, and its machine has the invariant
    cases hstep : m.step body with
    | running m₁ =>
      rw [hstep] at h
      exact ih h (hmove m m₁ hm (moves_of_step hrec hstep))
    | finished m₁ =>
      rw [hstep] at h
      cases h
      exact ⟨m, hm, Or.inl ⟨hstep, rfl⟩⟩
    | failed m₁ e =>
      rw [hstep] at h
      cases h
      exact ⟨m, hm, Or.inr ⟨e, hstep, rfl⟩⟩

/-- What every move keeps holds of a machine that has finished. -/
theorem finished_invariant {Inv : Machine → Prop} (hrec : body.recovery = none)
    (hmove : ∀ m m', Inv m → Moves body m m' → Inv m') {fuel : Nat}
    (h : run body fuel m = some (m', none)) (hm : Inv m) :
    Inv m' ∧ m'.path = none ∧ m'.work = [] ∧ m'.graph.nextPending? = none := by
  obtain ⟨last, hlast, ⟨hstep, _⟩ | ⟨_, _, hcontra⟩⟩ := run_invariant hrec hmove h hm
  · obtain ⟨rfl, hidle⟩ := idle_of_step hrec hstep
    exact ⟨hlast, hidle⟩
  · cases hcontra

/-- The state after some steps, if the machine is still running then. -/
def after (body : Body) : Nat → Machine → Option Machine
  | 0, m => some m
  | n + 1, m => match m.step body with
    | .running m => after body n m
    | _ => none

variable {n : Nat}

/-- What every move keeps holds of each state of a run. -/
theorem after_invariant {Inv : Machine → Prop} (hrec : body.recovery = none)
    (hmove : ∀ m m', Inv m → Moves body m m' → Inv m') (h : m.after body n = some m') (hm : Inv m) :
    Inv m' := by
  induction n generalizing m with
  | zero =>
    cases h
    exact hm
  | succ n ih =>
    rw [after] at h
    cases hstep : m.step body with
    | running m₁ =>
      rw [hstep] at h
      exact ih h (hmove m m₁ hm (moves_of_step hrec hstep))
    | finished m₁ => rw [hstep] at h; cases h
    | failed m₁ e => rw [hstep] at h; cases h

/-- A run goes through the states after its first steps. -/
theorem run_of_after (h : m.after body n = some m') (fuel : Nat) :
    run body (n + fuel) m = run body fuel m' := by
  induction n generalizing m with
  | zero =>
    cases h
    rw [Nat.zero_add]
  | succ n ih =>
    rw [after] at h
    rw [Nat.succ_add, run]
    cases hstep : m.step body with
    | running m₁ =>
      rw [hstep] at h
      exact ih h
    | finished m₁ => rw [hstep] at h; cases h
    | failed m₁ e => rw [hstep] at h; cases h

/-- More fuel changes nothing once a run has stopped. -/
theorem run_mono {fuel : Nat} {result : Machine × Option Error}
    (h : run body fuel m = some result) (more : Nat) : run body (more + fuel) m = some result := by
  induction fuel generalizing m with
  | zero => cases h
  | succ fuel ih =>
    -- both runs take the same first step
    rw [← Nat.add_assoc, run]
    rw [run] at h
    cases hstep : m.step body with
    | running m₁ =>
      rw [hstep] at h
      exact ih h
    | finished m₁ =>
      rw [hstep] at h
      exact h
    | failed m₁ e =>
      rw [hstep] at h
      exact h

/-- A run that stops is also the run of each state it goes through. -/
theorem run_of_run_of_after {fuel : Nat} {result : Machine × Option Error}
    (h : m.after body n = some m') (hrun : run body fuel m = some result) :
    run body fuel m' = some result := by
  rw [← run_of_after h fuel]
  exact run_mono hrun n

end Machine

end JvmFrames
