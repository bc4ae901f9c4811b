import JvmFrames.Analysis
import JvmFrames.Hierarchy
import JvmFrames.Proofs.Execution
import JvmFrames.Proofs.Machine.Step
import JvmFrames.Proofs.Merge

/-!
# No work is lost

When analysis succeeds, its join graph is closed under execution: whatever execution from the start
of the body, or from a join point with its final frame, leads into a join point has been seen there.

The machine may stop in the middle of that execution at any time, so the invariant speaks of
execution up to the state the machine is at. `Covered` is a piece of execution that has been
accounted for, down to the points where it arrives at a join label, leaves the method or meets the
open path. A move extends the covered pieces at the open path and nowhere else (`Covered.extend`),
so one lemma (`Accounted.of_changes`) carries the invariant through every move.
-/

namespace JvmFrames

/-- The words of a frame do not exceed the maxima. -/
def Maxima.Covers (limit : Maxima) (f : Frame) : Prop :=
  f.locals.words ≤ limit.locals ∧ f.stackWords ≤ limit.stack

/-- Neither maximum has become smaller. -/
def Maxima.Within (a b : Maxima) : Prop := a.locals ≤ b.locals ∧ a.stack ≤ b.stack

namespace Maxima

variable {a b limit : Maxima} {f : Frame}

theorem Covers.mono (h : a.Covers f) (hle : a.Within b) : b.Covers f :=
  ⟨Nat.le_trans h.1 hle.1, Nat.le_trans h.2 hle.2⟩

theorem Within.refl (a : Maxima) : a.Within a := ⟨Nat.le_refl _, Nat.le_refl _⟩

theorem within_cover (a : Maxima) (f : Frame) : a.Within (a.cover f) :=
  ⟨Nat.le_max_left .., Nat.le_max_left ..⟩

theorem covers_cover (a : Maxima) (f : Frame) : (a.cover f).Covers f :=
  ⟨Nat.le_max_right .., Nat.le_max_right ..⟩

end Maxima

/-! ## Covered execution

What has been executed is a piece of straight execution with an end: it arrives at a join label, it
leaves the method, or it is where the machine is at the moment. `Covered` holds of the states such a
piece begins with. -/

/-- Execution from a state is accounted for: every arrival on the way has been seen and every frame
on the way is within the maxima, up to where the machine is on its path. -/
inductive Covered (body : Body) (g : JoinGraph) (limit : Maxima) (path : Option (Nat × Frame)) :
    Nat → Frame → Prop where
  /-- This is where the machine is. -/
  | current (p : Nat) (f : Frame) (hpath : path = some (p, f)) (hfits : limit.Covers f) :
      Covered body g limit path p f
  | arrive (p : Nat) (f : Frame) (l : Label) (hnode : body.code.nodes[p]? = some (.label l))
      (hjoin : g.isJoin l = true) (hseen : g.Seen l f) (hfits : limit.Covers f) :
      Covered body g limit path p f
  | label (p : Nat) (f : Frame) (l : Label) (hnode : body.code.nodes[p]? = some (.label l))
      (hjoin : g.isJoin l = false) (hrest : Covered body g limit path (p + 1) f) :
      Covered body g limit path p f
  | frame (p : Nat) (f : Frame) (s : StackMapFrame VType)
      (hnode : body.code.nodes[p]? = some (.frame s))
      (hrest : Covered body g limit path (p + 1) f) : Covered body g limit path p f
  | insn (p : Nat) (f f' : Frame) (i : Instruction)
      (hnode : body.code.nodes[p]? = some (.insn i)) (hcatch : g.Catches g.Seen p f)
      (hexec : f.execute body.method.className (body.code.siteBefore? p) i = .ok f')
      (hfits : limit.Covers f) (hrest : Covered body g limit path (p + 1) f') :
      Covered body g limit path p f
  | branch (p : Nat) (f f' : Frame) (b : Branch)
      (hnode : body.code.nodes[p]? = some (.branch b)) (hcatch : g.Catches g.Seen p f)
      (hexec : f.executeBranch body.method.descriptor.result b = .ok f')
      (hfits : limit.Covers f) (hfits' : limit.Covers f') (hseen : ∀ t ∈ b.targets, g.Seen t f')
      (hrest : b.fallsThrough = true → Covered body g limit path (p + 1) f') :
      Covered body g limit path p f

namespace Covered

variable {body : Body} {g g' : JoinGraph} {limit limit' : Maxima} {path path' : Option (Nat × Frame)}
variable {p : Nat} {f : Frame}

/-- What is covered stays covered while the graph grows, if the open path is covered anew. -/
theorem extend (h : Covered body g limit path p f) (hgrow : g.Grows g')
    (hlimit : limit.Within limit')
    (hopen : ∀ q h, path = some (q, h) → Covered body g' limit' path' q h) :
    Covered body g' limit' path' p f := by
  induction h with
  -- the one end that is open, and so the one place where something new is asked for
  | current p f hpath hfits => exact hopen p f hpath
  | arrive p f l hnode hjoin hseen hfits =>
    exact .arrive p f l hnode (by rw [hgrow.isJoin]; exact hjoin) (hgrow.seen hseen)
      (hfits.mono hlimit)
  | label p f l hnode hjoin _ ih =>
    exact .label p f l hnode (by rw [hgrow.isJoin]; exact hjoin) ih
  | frame p f s hnode _ ih => exact .frame p f s hnode ih
  | insn p f f' i hnode hcatch hexec hfits _ ih =>
    exact .insn p f f' i hnode (hgrow.catches hcatch) hexec (hfits.mono hlimit) ih
  | branch p f f' b hnode hcatch hexec hfits hfits' hseen _ ih =>
    exact .branch p f f' b hnode (hgrow.catches hcatch) hexec (hfits.mono hlimit)
      (hfits'.mono hlimit) (fun t ht => hgrow.seen (hseen t ht)) ih

/-- The frame of a covered state is within the maxima. -/
theorem fits (h : Covered body g limit path p f) : limit.Covers f := by
  induction h with
  | current _ _ _ hfits => exact hfits
  | arrive _ _ _ _ _ _ hfits => exact hfits
  | label _ _ _ _ _ _ ih => exact ih
  | frame _ _ _ _ _ ih => exact ih
  | insn _ _ _ _ _ _ _ hfits _ _ => exact hfits
  | branch _ _ _ _ _ _ _ hfits _ _ _ _ => exact hfits

/-- What is known of a covered state with no path open, by the node there. -/
theorem at_node (h : Covered body g limit none p f) :
    match body.code.nodes[p]? with
    | none => False
    | some (.label l) => (g.isJoin l = true ∧ g.Seen l f)
        ∨ (g.isJoin l = false ∧ Covered body g limit none (p + 1) f)
    | some (.frame _) => Covered body g limit none (p + 1) f
    | some (.insn i) => g.Catches g.Seen p f
        ∧ ∃ f', f.execute body.method.className (body.code.siteBefore? p) i = .ok f'
            ∧ Covered body g limit none (p + 1) f'
    | some (.branch b) => g.Catches g.Seen p f
        ∧ ∃ f', f.executeBranch body.method.descriptor.result b = .ok f' ∧ limit.Covers f'
            ∧ (∀ t ∈ b.targets, g.Seen t f')
            ∧ (b.fallsThrough = true → Covered body g limit none (p + 1) f') := by
  cases h with
  -- no path is open, so every state is covered by the node there
  | current _ _ hpath _ => cases hpath
  | arrive _ _ l hnode hjoin hseen _ => simp only [hnode]; exact Or.inl ⟨hjoin, hseen⟩
  | label _ _ l hnode hjoin hrest => simp only [hnode]; exact Or.inr ⟨hjoin, hrest⟩
  | frame _ _ s hnode hrest => simp only [hnode]; exact hrest
  | insn _ _ f' i hnode hcatch hexec _ hrest =>
    simp only [hnode]
    exact ⟨hcatch, f', hexec, hrest⟩
  | branch _ _ f' b hnode hcatch hexec _ hfits' hseen hrest =>
    simp only [hnode]
    exact ⟨hcatch, f', hexec, hfits', hseen, hrest⟩

/-- A covered state at a label has arrived there, or goes on behind it. -/
theorem at_label {l : Label} (h : Covered body g limit none p f)
    (hnode : body.code.nodes[p]? = some (.label l)) :
    (g.isJoin l = true ∧ g.Seen l f)
      ∨ (g.isJoin l = false ∧ Covered body g limit none (p + 1) f) := by
  have hat := h.at_node
  simp only [hnode] at hat
  exact hat

theorem at_frame {s : StackMapFrame VType} (h : Covered body g limit none p f)
    (hnode : body.code.nodes[p]? = some (.frame s)) : Covered body g limit none (p + 1) f := by
  have hat := h.at_node
  simp only [hnode] at hat
  exact hat

/-- An instruction at a covered state can be executed, and what comes of it is covered. -/
theorem at_insn {i : Instruction} (h : Covered body g limit none p f)
    (hnode : body.code.nodes[p]? = some (.insn i)) :
    ∃ f', f.execute body.method.className (body.code.siteBefore? p) i = .ok f'
      ∧ Covered body g limit none (p + 1) f' := by
  have hat := h.at_node
  simp only [hnode] at hat
  exact hat.2

/-- A branch at a covered state can be executed, its targets have seen the frame, and what falls
through is covered. -/
theorem at_branch {b : Branch} (h : Covered body g limit none p f)
    (hnode : body.code.nodes[p]? = some (.branch b)) :
    ∃ f', f.executeBranch body.method.descriptor.result b = .ok f' ∧ limit.Covers f'
      ∧ (∀ t ∈ b.targets, g.Seen t f')
      ∧ (b.fallsThrough = true → Covered body g limit none (p + 1) f') := by
  have hat := h.at_node
  simp only [hnode] at hat
  exact hat.2

/-- With no path open, execution may go on from every covered state. -/
theorem admits (h : Covered body g limit none p f) : body.Admits g g.Seen p f := by
  have hat := h.at_node
  unfold Body.Admits
  cases hnode : body.code.nodes[p]? with
  | none => simp only [hnode] at hat
  | some node =>
    simp only [hnode] at hat
    cases node with
    | label l =>
      intro hjoin
      -- at a join label the execution has arrived; it did not pass on
      rcases hat with ⟨_, hseen⟩ | ⟨hnone, _⟩
      · exact hseen
      · rw [hjoin] at hnone
        cases hnone
    | frame s => trivial
    | insn i =>
      obtain ⟨hcatch, f', hexec, _⟩ := hat
      exact ⟨hcatch, f', hexec⟩
    | branch b =>
      obtain ⟨hcatch, f', hexec, _, hseen, _⟩ := hat
      exact ⟨hcatch, f', hexec, hseen⟩

/-- With no path open, one step of execution leads from a covered state to a covered state. -/
theorem of_advances {s t : Nat × Frame} (h : Covered body g limit none s.1 s.2)
    (hstep : body.Advances g s t) : Covered body g limit none t.1 t.2 := by
  cases hstep with
  | label p f l hnode hjoin =>
    -- a step passes only labels that are not join labels
    rcases h.at_label hnode with ⟨hcontra, _⟩ | ⟨_, hrest⟩
    · rw [hjoin] at hcontra
      cases hcontra
    · exact hrest
  | frame p f s hnode => exact h.at_frame hnode
  | insn p f f' i hnode hexec =>
    -- execution is a function, so the step is the one that was covered
    obtain ⟨f'', hexec', hrest⟩ := h.at_insn hnode
    rw [hexec] at hexec'
    cases hexec'
    exact hrest
  | branch p f f' b hnode hfall hexec =>
    obtain ⟨f'', hexec', _, _, hrest⟩ := h.at_branch hnode
    rw [hexec] at hexec'
    cases hexec'
    exact hrest hfall

/-- With no path open, all that execution comes to from a covered state is covered. -/
theorem of_reaches {s t : Nat × Frame} (h : Covered body g limit none s.1 s.2)
    (hrun : body.Reaches g s t) : Covered body g limit none t.1 t.2 := by
  induction hrun with
  | refl => exact h
  | tail _ hstep ih => exact ih.of_advances hstep

end Covered

/-! ## The invariant

All states that execution has to start from are answered for: by covered execution, by a path on the
work list, or by a mark at a join point. A move may turn one of these into another but drops none.
-/

namespace Machine

variable {body : Body} {m m' : Machine}

/-- Execution from a state is covered, or is still to be followed. -/
def Answers (body : Body) (m : Machine) (p : Nat) (f : Frame) : Prop :=
  (p, f) ∈ m.work ∨ Covered body m.graph m.maxima m.path p f

/-- Nothing that has to be executed has been forgotten. -/
structure Accounted (body : Body) (m : Machine) : Prop where
  built : m.graph.Built body.code
  marked : m.graph.Marked
  fits : ∀ p f, m.path = some (p, f) → m.maxima.Covers f
  entry : m.Answers body 0 (Frame.entry body.method)
  joins : ∀ l j f, m.graph.join? l = some j → j.merged = some f →
    j.isPending = true ∨ m.Answers body (j.position + 1) f

/-- At the start nothing has been merged, and the start of the body is on the work list. -/
theorem accounted_start {graph : JoinGraph} (hbuilt : graph.Built body.code) (hfresh : graph.Fresh) :
    (start body graph).Accounted body where
  built := hbuilt
  marked := fun l j hj hpending => by
    rw [(hfresh l j hj).2.2] at hpending
    cases hpending
  fits := fun p f hpath => by cases hpath
  entry := Or.inl (List.mem_cons_self ..)
  joins := fun l j f hj hmerged => by
    rw [(hfresh l j hj).1] at hmerged
    cases hmerged

/-- The invariant survives a change that covers the path there was, loses no path still to follow,
and leaves traces of all merged frames that change. -/
theorem Accounted.of_changes (h : m.Accounted body) (hgrow : m.graph.Grows m'.graph)
    (hmarked : m'.graph.Marked) (hlimit : m.maxima.Within m'.maxima)
    (hfits : ∀ p f, m'.path = some (p, f) → m'.maxima.Covers f)
    (hpath : ∀ p f, m.path = some (p, f) → Covered body m'.graph m'.maxima m'.path p f)
    (hwork : ∀ p f, (p, f) ∈ m.work → m'.Answers body p f)
    {traces : List (Nat × Frame)} (halerts : JoinGraph.Alerts m.graph m'.graph traces)
    (htraces : ∀ p f, (p, f) ∈ traces → m'.Answers body p f) : m'.Accounted body := by
  -- coverage that ran up to the open path is continued by the coverage of that path itself
  have hkeep : ∀ p f, m.Answers body p f → m'.Answers body p f := by
    rintro p f (hmem | hcovered)
    · exact hwork p f hmem
    · exact Or.inr (hcovered.extend hgrow hlimit hpath)
  refine ⟨h.built.grows hgrow, hmarked, hfits, hkeep _ _ h.entry, ?_⟩
  intro l k f hk hmerged
  rcases halerts l k hk with ⟨j, hj, hsame, hpend⟩ | hpending | ⟨f', hf', htrace⟩
  · -- the merged frame is the one it was, and was answered for before the change
    obtain ⟨j', hj', hgrows⟩ := hgrow.join_of_later hk
    rw [hj] at hj'
    cases hj'
    rcases h.joins l j f hj (hsame.symm.trans hmerged) with hpending | hanswers
    · exact Or.inl (hpend hpending)
    · rw [hgrows.position]
      exact Or.inr (hkeep _ _ hanswers)
  · exact Or.inl hpending
  · rw [hf'] at hmerged
    cases hmerged
    exact Or.inr (htraces _ _ htrace)

/-- The same for a machine on a path: the path there was is covered up to where the machine is
now. -/
theorem Accounted.of_path {p : Nat} {f : Frame} (h : m.Accounted body)
    (hpath : m.path = some (p, f)) (hgrow : m.graph.Grows m'.graph) (hmarked : m'.graph.Marked)
    (hlimit : m.maxima.Within m'.maxima)
    (hfits : ∀ p f, m'.path = some (p, f) → m'.maxima.Covers f)
    (hcovered : Covered body m'.graph m'.maxima m'.path p f) (hwork : ∀ x ∈ m.work, x ∈ m'.work)
    {traces : List (Nat × Frame)} (halerts : JoinGraph.Alerts m.graph m'.graph traces)
    (htraces : ∀ p f, (p, f) ∈ traces → m'.Answers body p f) : m'.Accounted body := by
  refine h.of_changes hgrow hmarked hlimit hfits ?_ (fun q k hmem => Or.inl (hwork (q, k) hmem))
    halerts htraces
  intro q k hq
  rw [hpath] at hq
  cases hq
  exact hcovered

/-- A machine that takes up a path. All that changes in its graph is that marks are taken away for
which this path stands. -/
theorem Accounted.follow {p : Nat} {f : Frame} {g : JoinGraph} {work : List (Nat × Frame)}
    (h : m.Accounted body) (hpath : m.path = none) (hgrow : m.graph.Grows g) (hmarked : g.Marked)
    (hwork : ∀ x ∈ m.work, x = (p, f) ∨ x ∈ work)
    (halerts : JoinGraph.Alerts m.graph g [(p, f)]) :
    (({ m with graph := g, work } : Machine).follow p f).Accounted body := by
  -- the path that is taken up answers for itself
  have hcurrent : (({ m with graph := g, work } : Machine).follow p f).Answers body p f :=
    Or.inr (.current p f rfl (Maxima.covers_cover _ _))
  refine h.of_changes hgrow hmarked (Maxima.within_cover _ _) ?_ ?_ ?_ halerts ?_
  · intro q k hq
    cases hq
    exact Maxima.covers_cover _ _
  · -- there was no open path that would have to be covered
    intro q k hq
    rw [hpath] at hq
    cases hq
  · intro q k hmem
    rcases hwork (q, k) hmem with heq | hmem
    · cases heq
      exact hcurrent
    · exact Or.inl hmem
  · intro q k hmem
    rw [List.mem_singleton] at hmem
    cases hmem
    exact hcurrent

/-- A path that goes on with an unchanged graph and frame. -/
theorem Accounted.moveTo {p : Nat} {f : Frame} (h : m.Accounted body) (hpath : m.path = some (p, f))
    (hcovered : Covered body m.graph m.maxima (some (p + 1, f)) p f) :
    (m.moveTo (p + 1) f).Accounted body := by
  refine h.of_path hpath (.refl _) h.marked (.refl _) ?_ hcovered (fun _ hx => hx)
    (.refl m.graph []) (by simp)
  intro q k hq
  cases hq
  exact h.fits p f hpath

/-- A path that goes on from a join point with its merged frame. That frame is no larger than the
one that arrived, so the maxima cover it. -/
theorem Accounted.join {p : Nat} {f merged : Frame} {l : Label} {g : JoinGraph} {k : JoinPoint}
    (h : m.Accounted body) (hpath : m.path = some (p, f))
    (hnode : body.code.nodes[p]? = some (.label l)) (hjoin : m.graph.isJoin l = true)
    (hmark : JoinGraph.Marks body.oracle f l m.graph g true) (hk : g.join? l = some k)
    (hmerged : k.merged = some merged) :
    (({ m with graph := g } : Machine).moveTo (p + 1) merged).Accounted body := by
  have hgrow := hmark.grows
  have hf := h.fits p f hpath
  -- merging makes no frame larger, so the maxima need not be raised for the merge
  have hfits : m.maxima.Covers merged := by
    obtain ⟨f', hf', hle⟩ := hmark.exists_merged
      (P := fun f' => f'.locals.words ≤ f.locals.words ∧ f'.stackWords = f.stackWords) hk
      ⟨Nat.le_refl _, rfl⟩ (by
        intro a b c hmerge hab
        obtain ⟨_, _, hstack, hstack'⟩ := Frame.stack_of_merge hmerge
        have hwords := Frame.words_of_merge hmerge
        omega)
    rw [hmerged] at hf'
    cases hf'
    exact ⟨Nat.le_trans hle.1 hf.1, hle.2 ▸ hf.2⟩
  obtain ⟨merged', hmerged', halerts⟩ := hmark.alerts_true hk
  rw [hmerged] at hmerged'
  cases hmerged'
  rw [(h.built.grows hgrow).position_of_node hnode hk] at halerts
  refine h.of_path hpath hgrow (h.marked.marks hmark) (.refl _) ?_
    (.arrive p f l hnode ((hgrow.isJoin l).trans hjoin) hmark.seen hf) (fun _ hx => hx) halerts ?_
  · intro q k hq
    cases hq
    exact hfits
  · intro q k hmem
    rw [List.mem_singleton] at hmem
    cases hmem
    exact Or.inr (.current _ _ rfl hfits)

/-- A branch, whether its path goes on or ends. -/
theorem Accounted.branch {p : Nat} {f f' : Frame} {b : Branch} {g g' : JoinGraph}
    {work : List (Nat × Frame)} (h : m.Accounted body) (path : Option (Nat × Frame))
    (hpath : m.path = some (p, f)) (hnode : body.code.nodes[p]? = some (.branch b))
    (hfeed : m.graph.feed body.oracle p f = .ok g)
    (hexec : f.executeBranch body.method.descriptor.result b = .ok f')
    (hmark : JoinGraph.markTargets body.oracle f' b.targets g m.work = .ok (g', work))
    (hnext : path = if b.fallsThrough then some (p + 1, f') else none) :
    Accounted body { m with graph := g', work, path, maxima := m.maxima.cover f' } := by
  have hgrow := JoinGraph.grows_feed hfeed
  have hgrow' := JoinGraph.grows_markTargets hmark
  obtain ⟨hsub, halerts⟩ := JoinGraph.alerts_markTargets hmark
  have hlimit := Maxima.within_cover m.maxima f'
  have hfits := Maxima.covers_cover m.maxima f'
  have halerts' : JoinGraph.Alerts m.graph g' work :=
    ((JoinGraph.alerts_feed hfeed).mono (by simp)).trans hgrow' halerts
  refine h.of_path hpath (hgrow.trans hgrow') ((h.marked.feed hfeed).markTargets hmark) hlimit ?_ ?_
    hsub halerts' (fun _ _ hmem => Or.inl hmem)
  · intro q k hq
    rw [show path = some (q, k) from hq] at hnext
    split at hnext
    · cases hnext
      exact hfits
    · cases hnext
  · -- the path ends here or goes on; the targets have seen the frame in either case
    refine .branch p f f' b hnode (hgrow'.catches (h.built.catches_of_feed hfeed)) hexec
      ((h.fits p f hpath).mono hlimit) hfits
      (fun t ht => JoinGraph.seen_of_markTargets hmark ht) (fun hfall => ?_)
    rw [if_pos hfall] at hnext
    exact .current _ _ hnext hfits

/-- Every move keeps the accounts: each of them is a change of which `of_changes` speaks. -/
theorem Accounted.moves (h : m.Accounted body) (hmove : Moves body m m') : m'.Accounted body := by
  cases hmove with
  | take p f work hpath hwork =>
    refine h.follow hpath (.refl _) h.marked ?_ (.refl m.graph _)
    intro x hx
    rw [hwork] at hx
    exact List.mem_cons.mp hx
  | enter j f hpath hwork hmem hpending hmerged =>
    have hj := h.built.join?_of_mem hmem
    have hgrows := JoinPoint.grows_withPending j false
    refine h.follow hpath (.setJoin hj hgrows)
      (h.marked.setJoin hj hgrows.label fun _ => by simp [hmerged]) (fun _ hx => Or.inr hx) ?_
    intro l k hk
    rw [JoinGraph.join?_setJoin hj hgrows.label] at hk
    by_cases hl : l = j.label
    · -- the mark is gone, and the path now taken up stands for it
      rw [if_pos hl] at hk
      cases hk
      exact Or.inr (Or.inr ⟨f, hmerged, List.mem_cons_self ..⟩)
    · rw [if_neg hl] at hk
      exact Or.inl ⟨k, hk, rfl, fun hp => hp⟩
  | label p f l hpath hnode hjoin =>
    exact h.moveTo hpath (.label p f l hnode hjoin (.current _ _ rfl (h.fits p f hpath)))
  | frame p f s hpath hnode =>
    exact h.moveTo hpath (.frame p f s hnode (.current _ _ rfl (h.fits p f hpath)))
  | halt p f l g hpath hnode hjoin hmark =>
    exact h.of_path hpath hmark.grows (h.marked.marks hmark) (.refl _) (fun _ _ hq => by cases hq)
      (.arrive p f l hnode ((hmark.grows.isJoin l).trans hjoin) hmark.seen (h.fits p f hpath))
      (fun _ hx => hx) hmark.alerts_false (by simp)
  | join p f l g k merged hpath hnode hjoin hmark hk hmerged =>
    exact h.join hpath hnode hjoin hmark hk hmerged
  | insn p f i g f' hpath hnode hfeed hexec =>
    have hlimit := Maxima.within_cover m.maxima f'
    have hfits := Maxima.covers_cover m.maxima f'
    refine h.of_path hpath (JoinGraph.grows_feed hfeed) (h.marked.feed hfeed) hlimit ?_
      (.insn p f f' i hnode (h.built.catches_of_feed hfeed) hexec ((h.fits p f hpath).mono hlimit)
        (.current _ _ rfl hfits))
      (fun _ hx => hx) (JoinGraph.alerts_feed hfeed) (by simp)
    intro q k hq
    cases hq
    exact hfits
  | branch p f b g g' f' work hpath hnode hfeed hexec hmark =>
    cases hfall : b.fallsThrough with
    | true =>
      have hbranch := h.branch (some (p + 1, f')) hpath hnode hfeed hexec hmark (by rw [hfall]; rfl)
      exact hbranch
    | false =>
      have hbranch := h.branch none hpath hnode hfeed hexec hmark (by rw [hfall]; rfl)
      exact hbranch

/-- A move only adds to the graph. -/
theorem Moves.grows (hmove : Moves body m m') (hbuilt : m.graph.Built body.code) :
    m.graph.Grows m'.graph := by
  cases hmove with
  | take p f work hpath hwork => exact .refl _
  | enter j f hpath hwork hmem hpending hmerged =>
    exact .setJoin (hbuilt.join?_of_mem hmem) (JoinPoint.grows_withPending j false)
  | label p f l hpath hnode hjoin => exact .refl _
  | frame p f s hpath hnode => exact .refl _
  | halt p f l g hpath hnode hjoin hmark => exact hmark.grows
  | join p f l g k merged hpath hnode hjoin hmark hk hmerged => exact hmark.grows
  | insn p f i g f' hpath hnode hfeed hexec => exact JoinGraph.grows_feed hfeed
  | branch p f b g g' f' work hpath hnode hfeed hexec hmark =>
    -- feeding handlers and marking targets, one after the other
    have hgrow := (JoinGraph.grows_feed hfeed).trans (JoinGraph.grows_markTargets hmark)
    cases b.fallsThrough with
    | true => exact hgrow
    | false => exact hgrow

/-- Nothing is left to do at the end of a run, so everything has been covered. -/
theorem Accounted.covered (h : m.Accounted body) (hpath : m.path = none) (hwork : m.work = [])
    (hidle : m.graph.nextPending? = none) {s : Nat × Frame}
    (hs : body.Starts m.graph m.graph.frameAt? s) : Covered body m.graph m.maxima none s.1 s.2 := by
  -- with no path open, coverage goes all the way
  have hanswered : ∀ p f, m.Answers body p f → Covered body m.graph m.maxima none p f := by
    rintro p f (hmem | hcovered)
    · rw [hwork] at hmem
      cases hmem
    · rw [← hpath]
      exact hcovered
  cases hs with
  | entry => exact hanswered _ _ h.entry
  | join l p f hjoin hp hf =>
    obtain ⟨j, hj⟩ := JoinGraph.exists_join?_of_isJoin hjoin
    rw [JoinGraph.frameAt?_of_join? hj] at hf
    have hposition : j.position = p := by
      rw [h.built.position l j hj] at hp
      exact Except.ok.inj hp
    -- no join point is marked at the end, so the merged frame is answered for in another way
    rcases h.joins l j f hj hf with hpending | hanswers
    · rw [JoinGraph.nextPending?_eq_none h.built h.marked hidle l j hj] at hpending
      cases hpending
    · rw [hposition] at hanswers
      exact hanswered _ _ hanswers

end Machine

/-- Execution starts behind a join label that has a merged frame. -/
theorem Body.starts_of_frameAt? {body : Body} {g : JoinGraph} {p : Nat} {l : Label} {f : Frame}
    (hbuilt : g.Built body.code) (hnode : body.code.nodes[p]? = some (.label l))
    (hf : g.frameAt? l = some f) : body.Starts g g.frameAt? (p + 1, f) := by
  obtain ⟨j, hj, _⟩ := Option.bind_eq_some_iff.mp hf
  exact .join l p f (JoinGraph.isJoin_of_join? hj) ((hbuilt.placed l p).mpr hnode) hf

/-! ## Successful analyses

What an analysis reports is taken back to the run it comes from, and the invariant is read off the
last machine of that run. -/

/-- Analysis of the countdown succeeds. -/
theorem Countdown.analyze_ok : ∃ report analysis,
    analyze 80 Hierarchy.javaLang.common .plain method code ranges = some report
      ∧ report.result = .ok analysis := by
  have hok : (analyze 80 Hierarchy.javaLang.common .plain method code ranges).any
      (fun report => report.result.isOk) = true := by decide +kernel
  obtain ⟨report, hreport, hresult⟩ := (Option.any_eq_true ..).mp hok
  cases hanalysis : report.result with
  | error e => rw [hanalysis] at hresult; cases hresult
  | ok analysis => exact ⟨report, analysis, hreport, hanalysis⟩

namespace Analysis

/-- The body that is run when code is analyzed. -/
def bodyOf (oracle : Oracle) (settings : Settings) (method : Method) (code : Code) : Body :=
  ⟨method, prepare settings code, oracle, settings.recovery⟩

variable {fuel : Nat} {oracle : Oracle} {settings : Settings} {method : Method} {code : Code}
variable {ranges : List ProtectedRange} {report : Report} {analysis : Analysis}

/-- What is executed of a body as it is analyzed stands in the body that was given. -/
theorem mem_of_mem_prepare {node : Node} (h : node ∈ (prepare settings code).nodes)
    (hnode : node.label? = none) : node ∈ code.nodes := by
  have hmem : node ∈ (if settings.insertFrames then code.removeFrames else code).nodes := by
    rw [← Array.mem_toList_iff]
    exact mem_of_mem_labelAllocations (List.mem_toArray.mp h) hnode
  split at hmem
  · exact (Array.mem_filter.mp hmem).1
  · exact hmem

/-- What is concluded from a run whose maxima are small enough. -/
theorem conclude_eq_ok {m : Machine} {woven : Code}
    (h : conclude method code m = .ok (analysis, woven)) :
    m.maxima.stack ≤ maxWords ∧ m.maxima.locals ≤ maxWords
      ∧ analysis = ⟨m.maxima.stack.toUInt16, m.maxima.locals.toUInt16, (Frame.entry method).snapshot,
          directivesFrom (Frame.entry method).snapshot ((reachedAnchors m.graph code).map (·.2))⟩
      ∧ woven = { code with
          nodes := (weaveFrames 0 code.nodes.toList (((reachedAnchors m.graph code).map (·.1)).zip
            (analysis.frames.map (·.frame)))).toArray } := by
  unfold conclude at h
  -- either maximum may be too large, and then nothing is concluded
  by_cases hstack : maxWords < m.maxima.stack
  · rw [if_pos hstack] at h
    cases h
  · by_cases hlocals : maxWords < m.maxima.locals
    · rw [if_neg hstack, if_pos hlocals] at h
      cases h
    · rw [if_neg hstack, if_neg hlocals] at h
      cases h
      exact ⟨Nat.le_of_not_lt hstack, Nat.le_of_not_lt hlocals, rfl, rfl⟩

/-- The maxima of the result are those of the machine. They were checked before they were cut to
sixteen bits, so nothing is lost. -/
theorem words_of_conclude {m : Machine} {woven : Code}
    (h : conclude method code m = .ok (analysis, woven)) :
    analysis.maxStack.toNat = m.maxima.stack ∧ analysis.maxLocals.toNat = m.maxima.locals := by
  obtain ⟨hstack, hlocals, rfl, _⟩ := conclude_eq_ok h
  exact ⟨UInt16.toNat_ofNat_of_lt (Nat.lt_succ_of_le hstack),
    UInt16.toNat_ofNat_of_lt (Nat.lt_succ_of_le hlocals)⟩

theorem analyze_of_build_error {e : Error}
    (hbuild : JoinGraph.build oracle (prepare settings code) ranges = .error e) :
    analyze fuel oracle settings method code ranges
      = some ⟨prepare settings code, [], .error e⟩ := by
  unfold analyze
  simp only [hbuild]

/-- Analysis of a body whose labels are all right reports on the run of its machine. -/
theorem analyze_of_build_ok {graph : JoinGraph}
    (hbuild : JoinGraph.build oracle (prepare settings code) ranges = .ok graph) :
    analyze fuel oracle settings method code ranges
      = (Machine.run (bodyOf oracle settings method code) fuel
          (.start (bodyOf oracle settings method code) graph)).map
        fun (m, error) => Analysis.report settings (bodyOf oracle settings method code) m error := by
  unfold analyze bodyOf
  simp only [hbuild]
  split
  · next hrun => rw [hrun, Option.map_none]
  · next hrun => rw [hrun, Option.map_some]

/-- An analysis comes to its report because the labels of the body are wrong, or by a run that has
stopped. -/
theorem cases_of_analyze (h : analyze fuel oracle settings method code ranges = some report) :
    (∃ e, JoinGraph.build oracle (prepare settings code) ranges = .error e
        ∧ report.result = .error e)
      ∨ ∃ graph m error, JoinGraph.build oracle (prepare settings code) ranges = .ok graph
        ∧ Machine.run (bodyOf oracle settings method code) fuel
            (.start (bodyOf oracle settings method code) graph) = some (m, error)
        ∧ report = Analysis.report settings (bodyOf oracle settings method code) m error := by
  cases hbuild : JoinGraph.build oracle (prepare settings code) ranges with
  | error e =>
    rw [analyze_of_build_error hbuild] at h
    cases h
    exact Or.inl ⟨e, rfl, rfl⟩
  | ok graph =>
    rw [analyze_of_build_ok hbuild] at h
    obtain ⟨⟨m, error⟩, hrun, rfl⟩ := Option.map_eq_some_iff.mp h
    exact Or.inr ⟨graph, m, error, rfl, hrun, rfl⟩

/-- A successful analysis comes from a run that has finished, and reports what is concluded from
it. -/
theorem concluded_of_ok (h : analyze fuel oracle settings method code ranges = some report)
    (hok : report.result = .ok analysis) :
    ∃ graph m woven, JoinGraph.build oracle (prepare settings code) ranges = .ok graph
      ∧ Machine.run (bodyOf oracle settings method code) fuel
          (.start (bodyOf oracle settings method code) graph) = some (m, none)
      ∧ conclude method (prepare settings code) m = .ok (analysis, woven)
      ∧ report.code = if settings.insertFrames then woven else prepare settings code := by
  rcases cases_of_analyze h with ⟨e, _, herror⟩ | ⟨graph, m, error, hbuild, hrun, rfl⟩
  · rw [hok] at herror
    cases herror
  · unfold Analysis.report at hok ⊢
    cases error with
    | some e => cases hok
    | none =>
      -- the run has finished; the result is that of `conclude`, and so is the body
      cases hconclude : conclude method (prepare settings code) m with
      | error e =>
        simp only [bodyOf, hconclude] at hok
        cases hok
      | ok result =>
        obtain ⟨a, woven⟩ := result
        simp only [bodyOf, hconclude] at hok ⊢
        cases hok
        exact ⟨graph, m, woven, hbuild, hrun, hconclude, rfl⟩

/-- The maxima that are reported are those of the run. -/
theorem run_of_ok (h : analyze fuel oracle settings method code ranges = some report)
    (hok : report.result = .ok analysis) :
    ∃ graph m, JoinGraph.build oracle (prepare settings code) ranges = .ok graph
      ∧ Machine.run (bodyOf oracle settings method code) fuel
          (.start (bodyOf oracle settings method code) graph) = some (m, none)
      ∧ analysis.maxStack.toNat = m.maxima.stack ∧ analysis.maxLocals.toNat = m.maxima.locals := by
  obtain ⟨graph, m, woven, hbuild, hrun, hconclude, _⟩ := concluded_of_ok h hok
  exact ⟨graph, m, hbuild, hrun, words_of_conclude hconclude⟩

/-- A finished run has only added to the graph it started from, and all execution from the states
that it has frames for is covered. -/
theorem covered_of_run {graph : JoinGraph} {m : Machine} {body : Body}
    (hrec : body.recovery = none) (hbuild : JoinGraph.build oracle body.code ranges = .ok graph)
    (hrun : Machine.run body fuel (.start body graph) = some (m, none)) :
    graph.Grows m.graph ∧ ∀ s t, body.Starts m.graph m.graph.frameAt? s → body.Reaches m.graph s t →
      Covered body m.graph m.maxima none t.1 t.2 := by
  obtain ⟨hbuilt, hfresh⟩ := JoinGraph.built_of_build hbuild
  have hmoves : ∀ m m', (graph.Grows m.graph ∧ m.Accounted body) → Machine.Moves body m m' →
      graph.Grows m'.graph ∧ m'.Accounted body :=
    fun m m' hm hmove => ⟨hm.1.trans (hmove.grows hm.2.built), hm.2.moves hmove⟩
  obtain ⟨⟨hgrow, hm⟩, hpath, hwork, hidle⟩ := Machine.finished_invariant hrec hmoves hrun
    ⟨.refl graph, Machine.accounted_start hbuilt hfresh⟩
  exact ⟨hgrow, fun s t hs ht => (hm.covered hpath hwork hidle hs).of_reaches ht⟩

/-- After a successful analysis the join graph is closed under execution. Straight execution from
the start of the body, and from behind each join label with its final frame, never fails and never
runs past the end; every frame that gets to a join label that way has been seen there, and so has
every frame that an exception carries into a handler. -/
theorem graph_closed_under_execution (hrec : settings.recovery = none)
    (h : analyze fuel oracle settings method code ranges = some report)
    (hok : report.result = .ok analysis) :
    ∃ graph m, JoinGraph.build oracle (prepare settings code) ranges = .ok graph
      ∧ Machine.run (bodyOf oracle settings method code) fuel
          (.start (bodyOf oracle settings method code) graph) = some (m, none)
      ∧ graph.Grows m.graph
      ∧ ∀ s t, (bodyOf oracle settings method code).Starts m.graph m.graph.frameAt? s →
          (bodyOf oracle settings method code).Reaches m.graph s t →
          (bodyOf oracle settings method code).Admits m.graph m.graph.Seen t.1 t.2 := by
  obtain ⟨graph, m, hbuild, hrun, _⟩ := run_of_ok h hok
  obtain ⟨hgrow, hcovered⟩ := covered_of_run hrec hbuild hrun
  exact ⟨graph, m, hbuild, hrun, hgrow, fun s t hs ht => (hcovered s t hs ht).admits⟩

/-- The graph of the countdown is closed under execution. -/
theorem graph_closed_under_execution_countdown :
    ∃ report analysis, analyze 80 Hierarchy.javaLang.common .plain Countdown.method Countdown.code
        Countdown.ranges = some report
      ∧ report.result = .ok analysis
      ∧ ∃ graph m, JoinGraph.build Hierarchy.javaLang.common (prepare .plain Countdown.code)
          Countdown.ranges = .ok graph
        ∧ Machine.run (bodyOf Hierarchy.javaLang.common .plain Countdown.method Countdown.code) 80
            (.start (bodyOf Hierarchy.javaLang.common .plain Countdown.method Countdown.code) graph)
            = some (m, none)
        ∧ graph.Grows m.graph
        ∧ ∀ s t, (bodyOf Hierarchy.javaLang.common .plain Countdown.method Countdown.code).Starts
              m.graph m.graph.frameAt? s →
            (bodyOf Hierarchy.javaLang.common .plain Countdown.method Countdown.code).Reaches
              m.graph s t →
            (bodyOf Hierarchy.javaLang.common .plain Countdown.method Countdown.code).Admits
              m.graph m.graph.Seen t.1 t.2 := by
  obtain ⟨report, analysis, h, hok⟩ := Countdown.analyze_ok
  exact ⟨report, analysis, h, hok, graph_closed_under_execution rfl h hok⟩

end Analysis

end JvmFrames
