import JvmFrames.Proofs.JoinGraph.Built
import JvmFrames.Proofs.Machine.Step

/-!
# Properties that flow with frames

A scheme for invariants of a run. A property of the frames that paths have at each position, one of
the frames that arrive at each label and one of the join points fit together (`Body.Flow`) if each
follows from the others along every edge of the body. Then every state of a run has them
(`Flow.moves`), and a run can only fail where the properties do not rule a failure out
(`Flow.fails`).

A join label passes frames on to the handlers that protect it only while its merged frame changes. A
property that depends on which handlers are reached that way may use what will have arrived at them
(`Body.FlowWithin`).
-/

namespace JvmFrames

/-- `A` of frames at positions, `J` of frames that arrive at labels and `P` of join points follow
from one another along the edges of a body, in a run that brings only frames with `V` to labels. -/
structure Body.FlowWithin (body : Body) (graph : JoinGraph) (V : Label → Frame → Prop)
    (A : Nat → Frame → Prop) (J : Label → Frame → Prop) (P : Label → JoinPoint → Prop) : Prop where
  built : graph.Built body.code
  fresh : ∀ l j, graph.join? l = some j → P l j
  entry : A 0 (Frame.entry body.method)
  pass : ∀ p l f, body.code.nodes[p]? = some (.label l) → graph.isJoin l = false → A p f →
    A (p + 1) f
  arrive : ∀ p l f, body.code.nodes[p]? = some (.label l) → graph.isJoin l = true → A p f → J l f
  frame : ∀ (p : Nat) (s : StackMapFrame VType) f, body.code.nodes[p]? = some (.frame s) → A p f →
    A (p + 1) f
  insn : ∀ (p : Nat) i f f', body.code.nodes[p]? = some (.insn i) → A p f →
    f.execute body.method.className (body.code.siteBefore? p) i = .ok f' → A (p + 1) f'
  branch : ∀ (p : Nat) b f f', body.code.nodes[p]? = some (.branch b) → A p f →
    f.executeBranch body.method.descriptor.result b = .ok f' →
      (∀ t ∈ b.targets, J t f') ∧ (b.fallsThrough = true → A (p + 1) f')
  /-- Into the handlers that protect an instruction. -/
  caught : ∀ p node f l t, body.code.nodes[p]? = some node → node.isInstruction = true → A p f →
    l ∈ graph.protectors p → graph.catchType? l = some t → J l (f.caught t)
  /-- Into the handlers that protect a join label. -/
  caughtJoin : ∀ p l f l' t, body.code.nodes[p]? = some (.label l) → graph.isJoin l = true → J l f →
    l' ∈ graph.protectors p → graph.catchType? l' = some t → V l' (f.caught t) → J l' (f.caught t)
  receive : ∀ l j k f, P l j → J l f → j.Receives body.oracle f k → P l k
  pending : ∀ l j b, P l j → P l (j.withPending b)
  resume : ∀ p l j f, body.code.nodes[p]? = some (.label l) → graph.isJoin l = true → P l j →
    j.merged = some f → A (p + 1) f

/-- The properties follow from one another along the edges of a body in every run. -/
abbrev Body.Flow (body : Body) (graph : JoinGraph) (A : Nat → Frame → Prop)
    (J : Label → Frame → Prop) (P : Label → JoinPoint → Prop) : Prop :=
  body.FlowWithin graph (fun _ _ => True) A J P

/-- A property of all join points. -/
def JoinGraph.All (g : JoinGraph) (P : Label → JoinPoint → Prop) : Prop :=
  ∀ l j, g.join? l = some j → P l j

/-- Some frame that may arrive at a join point does not merge with the frame there. -/
def Body.Clash (body : Body) (J : Label → Frame → Prop) (P : Label → JoinPoint → Prop) : Prop :=
  ∃ l j f current cause, P l j ∧ J l f ∧ j.merged = some current
    ∧ current.merge body.oracle f = .error cause

namespace JoinGraph

/-- A property of all join points is kept if the one that is replaced has it. -/
theorem All.setJoin {g : JoinGraph} {P : Label → JoinPoint → Prop} {l : Label} {j k : JoinPoint}
    (h : g.All P) (hj : g.join? l = some j) (hlabel : k.label = j.label) (hk : P l k) :
    (g.setJoin k).All P := by
  intro l' i hi
  rw [join?_setJoin hj hlabel] at hi
  by_cases hl : l' = l
  · rw [if_pos hl] at hi
    cases hi
    rw [hl]
    exact hk
  · rw [if_neg hl] at hi
    exact h l' i hi

end JoinGraph

namespace Body.FlowWithin

variable {body : Body} {graph g g' : JoinGraph} {V : Label → Frame → Prop} {A : Nat → Frame → Prop}
variable {J : Label → Frame → Prop} {P : Label → JoinPoint → Prop} {p : Nat} {f : Frame} {l : Label}
variable {labels : List Label} {work work' : List (Nat × Frame)}

/-- A reception keeps the property of a join point, whether it is marked by it or not. -/
theorem receive_alerted (flow : body.FlowWithin graph V A J P) {j k : JoinPoint} (hj : P l j)
    (hf : J l f) (hk : j.Receives body.oracle f k) : P l (k.alerted j) := by
  unfold JoinPoint.alerted
  split
  · exact flow.receive l j k f hj hf hk
  · exact flow.pending l k true (flow.receive l j k f hj hf hk)

/-- What a handler makes of a frame may arrive there, as far as the graph at the start says. -/
theorem arrives_entering (hgrow : graph.Grows g) {j : JoinPoint} {s : HandlerState}
    (hflow : ∀ t, graph.catchType? l = some t → J l (f.caught t)) (hj : g.join? l = some j)
    (hs : j.handler = some s) : J l (f.entering s) := by
  have hcatch : graph.catchType? l = some s.catchType := by
    rw [← hgrow.catchType?_eq l, JoinGraph.catchType?_of_join? hj, hs]
    rfl
  exact hflow s.catchType hcatch

/-! ## Feeding and marking

The property of join points is kept by whatever may arrive. Since a graph keeps its labels and
guards, the edges are those of the graph at the start. -/

/-- Feeding some handlers with frames that may arrive there keeps the property of join points. -/
theorem feedHandlers (flow : body.FlowWithin graph V A J P) (hgrow : graph.Grows g) (hall : g.All P)
    (hflow : ∀ l ∈ labels, ∀ t, graph.catchType? l = some t → J l (f.caught t))
    (h : JoinGraph.feedHandlers body.oracle f labels g = .ok g') : g'.All P := by
  refine (JoinGraph.feedHandlers_induction
    (motive := fun g₁ => graph.Grows g₁ ∧ g₁.All P) ?_ h ⟨hgrow, hall⟩).2
  rintro g₁ l j k s hl ⟨hgrow₁, hall₁⟩ hj hs hk
  have hf := arrives_entering hgrow₁ (hflow l hl) hj hs
  refine ⟨hgrow₁.trans (.setJoin hj hk.grows_alerted), ?_⟩
  exact hall₁.setJoin hj hk.grows_alerted.label (flow.receive_alerted (hall₁ l j hj) hf hk)

/-- The handlers that protect a position, in a graph that has grown. -/
theorem feed (flow : body.FlowWithin graph V A J P) (hgrow : graph.Grows g) (hall : g.All P)
    (hflow : ∀ l ∈ graph.protectors p, ∀ t, graph.catchType? l = some t → J l (f.caught t))
    (h : g.feed body.oracle p f = .ok g') : g'.All P := by
  rw [← hgrow.protectors_eq] at hflow
  exact flow.feedHandlers hgrow hall hflow h

/-- A frame that may arrive at a label keeps the property of join points. -/
theorem marks {changed : Bool} (flow : body.FlowWithin graph V A J P) (hgrow : graph.Grows g)
    (hall : g.All P) (hf : J l f) (hV : ∀ l f, g'.Seen l f → V l f)
    (h : JoinGraph.Marks body.oracle f l g g' changed) : g'.All P := by
  cases h with
  | known j hj _ => exact hall
  | unchanged j k hj hk _ =>
    exact hall.setJoin hj hk.label (flow.receive l j k f (hall l j hj) hf hk)
  | changed j k g' hj hk _ hfeed =>
    have hnode := (flow.built.grows hgrow).node_of_join? hj
    have hjoin : graph.isJoin l = true := by
      rw [← hgrow.isJoin]
      exact JoinGraph.isJoin_of_join? hj
    have hgrow' := hgrow.trans (.setJoin hj hk.grows)
    refine flow.feed hgrow'
      (hall.setJoin hj hk.label (flow.receive l j k f (hall l j hj) hf hk)) ?_ hfeed
    intro l' hl' t ht
    -- what the handlers are fed with they have seen
    have hseen : g'.Seen l' (f.caught t) :=
      JoinGraph.seen_of_feedHandlers hfeed (by rw [hgrow'.protectors_eq]; exact hl')
        ((hgrow'.catchType?_eq l').trans ht)
    exact flow.caughtJoin j.position l f l' t hnode hjoin hf hl' ht (hV l' _ hseen)

/-- What a join point has merged may go on behind its label. -/
theorem resume_of_join (flow : body.FlowWithin graph V A J P) (hgrow : graph.Grows g)
    (hall : g.All P) {k : JoinPoint} (hk : g.join? l = some k) (hf : k.merged = some f) :
    A (k.position + 1) f := by
  have hjoin : graph.isJoin l = true := by
    rw [← hgrow.isJoin]
    exact JoinGraph.isJoin_of_join? hk
  exact flow.resume _ l k f ((flow.built.grows hgrow).node_of_join? hk) hjoin (hall l k hk) hf

/-- A branch to labels at which its frame may arrive keeps the property of join points, and that of
the paths still to follow. -/
theorem markTargets (flow : body.FlowWithin graph V A J P) (hgrow : graph.Grows g) (hall : g.All P)
    (hf : ∀ l ∈ labels, J l f) (hwork : ∀ x ∈ work, A x.1 x.2)
    (hV : ∀ l f, g'.Seen l f → V l f)
    (h : JoinGraph.markTargets body.oracle f labels g work = .ok (g', work')) :
    g'.All P ∧ ∀ x ∈ work', A x.1 x.2 := by
  -- what has been seen on the way has been seen in the end
  refine (JoinGraph.markTargets_induction
    (motive := fun g₁ w => graph.Grows g₁ ∧
      ((∀ l f, g₁.Seen l f → V l f) → g₁.All P ∧ ∀ x ∈ w, A x.1 x.2)) ?_ ?_ h
    ⟨hgrow, fun _ => ⟨hall, hwork⟩⟩).2 hV
  · intro g₁ g₂ w l hl ⟨hgrow₁, hbefore⟩ hmarks
    refine ⟨hgrow₁.trans hmarks.grows, fun hV₂ => ?_⟩
    have ⟨hall₁, hw⟩ := hbefore fun l f hseen => hV₂ l f (hmarks.grows.seen hseen)
    exact ⟨flow.marks hgrow₁ hall₁ (hf l hl) hV₂ hmarks, hw⟩
  · intro g₁ g₂ w l k hl ⟨hgrow₁, hbefore⟩ hmarks hk
    have hgrow₂ := hgrow₁.trans hmarks.grows
    refine ⟨hgrow₂, fun hV₂ => ?_⟩
    have ⟨hall₁, hw⟩ := hbefore fun l f hseen => hV₂ l f (hmarks.grows.seen hseen)
    have hall₂ := flow.marks hgrow₁ hall₁ (hf l hl) hV₂ hmarks
    obtain ⟨m, hm, _⟩ := hmarks.alerts_true hk
    refine ⟨hall₂, ?_⟩
    intro x hx
    rcases List.mem_cons.mp hx with rfl | hmem
    · rw [hm]
      exact flow.resume_of_join hgrow₂ hall₂ hk hm
    · exact hw x hmem

end Body.FlowWithin

/-! ## Moves

Each move goes along one edge of the body, and the property of the frame it leads to is what the
scheme says of this edge. -/

/-- A machine whose frames and join points have the properties. -/
structure Machine.Respects (graph : JoinGraph) (A : Nat → Frame → Prop)
    (P : Label → JoinPoint → Prop) (m : Machine) : Prop where
  grows : graph.Grows m.graph
  path : ∀ p f, m.path = some (p, f) → A p f
  work : ∀ x ∈ m.work, A x.1 x.2
  joins : m.graph.All P

namespace Body.FlowWithin

variable {body : Body} {graph : JoinGraph} {V : Label → Frame → Prop} {A : Nat → Frame → Prop}
variable {J : Label → Frame → Prop} {P : Label → JoinPoint → Prop} {m m' : Machine}

/-- The machine has the properties at the start, where only the frame on entry is there. -/
theorem start (flow : body.FlowWithin graph V A J P) :
    (Machine.start body graph).Respects graph A P where
  grows := .refl graph
  path := fun p f hpath => by cases hpath
  work := fun x hx => by
    rw [List.mem_singleton.mp hx]
    exact flow.entry
  joins := flow.fresh

/-- Every move keeps the properties. -/
theorem moves (flow : body.FlowWithin graph V A J P) (h : m.Respects graph A P)
    (hmove : m.Moves body m') (hV : ∀ l f, m'.graph.Seen l f → V l f) :
    m'.Respects graph A P := by
  -- there is one path at most, so what is shown of the new one is shown of all
  have hpathOf : ∀ {x : Option (Nat × Frame)} {q : Nat} {k : Frame}, x = some (q, k) → A q k →
      ∀ p f, x = some (p, f) → A p f := by
    intro x q k hx hA p f hpf
    rw [hx] at hpf
    cases hpf
    exact hA
  cases hmove with
  | take p f work hpath hwork =>
    have hmem : ∀ x ∈ (p, f) :: work, A x.1 x.2 := by
      rw [← hwork]
      exact h.work
    exact ⟨h.grows, hpathOf rfl (hmem _ (List.mem_cons_self ..)),
      fun x hx => hmem x (List.mem_cons_of_mem _ hx), h.joins⟩
  | enter j f hpath hwork hmem hpending hmerged =>
    -- the mark is taken away, and the path goes on with the merged frame
    have hj := (flow.built.grows h.grows).join?_of_mem hmem
    have hgrows := JoinPoint.grows_withPending j false
    exact ⟨h.grows.trans (.setJoin hj hgrows),
      hpathOf rfl (flow.resume_of_join h.grows h.joins hj hmerged), h.work,
      h.joins.setJoin hj hgrows.label (flow.pending _ j false (h.joins _ j hj))⟩
  | label p f l hpath hnode hjoin =>
    rw [h.grows.isJoin] at hjoin
    exact ⟨h.grows, hpathOf rfl (flow.pass p l f hnode hjoin (h.path p f hpath)), h.work, h.joins⟩
  | frame p f s hpath hnode =>
    exact ⟨h.grows, hpathOf rfl (flow.frame p s f hnode (h.path p f hpath)), h.work, h.joins⟩
  | halt p f l g hpath hnode hjoin hmark =>
    rw [h.grows.isJoin] at hjoin
    have hf := flow.arrive p l f hnode hjoin (h.path p f hpath)
    exact ⟨h.grows.trans hmark.grows, (fun _ _ hq => by cases hq), h.work,
      flow.marks h.grows h.joins hf hV hmark⟩
  | join p f l g k merged hpath hnode hjoin hmark hk hmerged =>
    rw [h.grows.isJoin] at hjoin
    have hf := flow.arrive p l f hnode hjoin (h.path p f hpath)
    -- the label has changed, and the path goes on with what it has now
    have hall := flow.marks h.grows h.joins hf hV hmark
    exact ⟨h.grows.trans hmark.grows,
      hpathOf rfl (flow.resume p l k merged hnode hjoin (hall l k hk) hmerged), h.work, hall⟩
  | insn p f i g f' hpath hnode hfeed hexec =>
    have hA := h.path p f hpath
    have hall := flow.feed h.grows h.joins
      (fun l hl t ht => flow.caught p _ f l t hnode rfl hA hl ht) hfeed
    exact ⟨h.grows.trans (JoinGraph.grows_feed hfeed),
      hpathOf rfl (flow.insn p i f f' hnode hA hexec), h.work, hall⟩
  | branch p f b g g' f' work hpath hnode hfeed hexec hmark =>
    have hA := h.path p f hpath
    -- handlers are fed before the branch is executed, targets are marked after it
    obtain ⟨htargets, hnext⟩ := flow.branch p b f f' hnode hA hexec
    have hgrow := h.grows.trans (JoinGraph.grows_feed hfeed)
    have hall := flow.feed h.grows h.joins
      (fun l hl t ht => flow.caught p _ f l t hnode rfl hA hl ht) hfeed
    have hgrow' := hgrow.trans (JoinGraph.grows_markTargets hmark)
    cases hfall : b.fallsThrough with
    | true =>
      rw [hfall] at hV
      obtain ⟨hall', hwork'⟩ := flow.markTargets hgrow hall htargets h.work hV hmark
      exact ⟨hgrow', hpathOf rfl (hnext hfall), hwork', hall'⟩
    | false =>
      rw [hfall] at hV
      obtain ⟨hall', hwork'⟩ := flow.markTargets hgrow hall htargets h.work hV hmark
      exact ⟨hgrow', (fun _ _ hq => by cases hq), hwork', hall'⟩

end Body.FlowWithin

/-! ## Failures

A machine fails because execution is stuck or because two frames do not merge. With the properties
at hand, both of these concern only frames that have them. -/

/-- Execution cannot go on: there is no node, or the instruction there fails. -/
def Body.Stuck (body : Body) (p : Nat) (f : Frame) : Prop :=
  match body.code.nodes[p]? with
  | none => True
  | some (.insn i) =>
    ∃ fault, f.execute body.method.className (body.code.siteBefore? p) i = .error fault
  | some (.branch b) => ∃ fault, f.executeBranch body.method.descriptor.result b = .error fault
  | some _ => False

namespace Body.Flow

variable {body : Body} {graph g g' : JoinGraph} {A : Nat → Frame → Prop} {J : Label → Frame → Prop}
variable {P : Label → JoinPoint → Prop} {p : Nat} {f : Frame} {l : Label} {labels : List Label}
variable {work work' : List (Nat × Frame)} {fault : Fault Error JoinGraph} {m m' : Machine}

/-- In a scheme for every run, moves keep the properties without further ado. -/
theorem moves (flow : body.Flow graph A J P) (h : m.Respects graph A P)
    (hmove : m.Moves body m') : m'.Respects graph A P :=
  FlowWithin.moves flow h hmove fun _ _ _ => trivial

/-- A frame that may arrive at a label and is refused there clashes. -/
theorem clash_of_refusal (hall : g.All P) (hf : J l f)
    (h : JoinGraph.Refusal body.oracle f l g fault) : body.Clash J P := by
  obtain ⟨j, current, cause, _, hj, hcurrent, hmerge, _⟩ := h
  exact ⟨l, j, f, current, cause, hall l j hj, hf, hcurrent, hmerge⟩

/-- Feeding fails only if frames clash. -/
theorem feedHandlers_fault (flow : body.Flow graph A J P) (hgrow : graph.Grows g) (hall : g.All P)
    (hflow : ∀ l ∈ labels, ∀ t, graph.catchType? l = some t → J l (f.caught t))
    (h : JoinGraph.feedHandlers body.oracle f labels g = .error fault) : body.Clash J P := by
  induction labels generalizing g with
  | nil => cases h
  | cons l rest ih =>
    rw [JoinGraph.feedHandlers] at h
    have hl : l ∈ l :: rest := List.mem_cons_self ..
    cases hfirst : g.feedHandler body.oracle f l with
    | error fault' =>
      obtain ⟨j, s, hj, hs, hrefusal⟩ := JoinGraph.refusal_of_feedHandler hfirst
      exact clash_of_refusal hall (FlowWithin.arrives_entering hgrow (hflow l hl) hj hs) hrefusal
    | ok g₁ =>
      rw [hfirst] at h
      -- the first handler is fed as a list of one
      have hone : JoinGraph.feedHandlers body.oracle f [l] g = .ok g₁ := by
        rw [JoinGraph.feedHandlers, hfirst]
        rfl
      have hgrow₁ := hgrow.trans (JoinGraph.grows_feedHandlers hone)
      have hall₁ := flow.feedHandlers hgrow hall
        (fun l' hl' => hflow l' (by rw [List.mem_singleton.mp hl']; exact hl)) hone
      exact ih hgrow₁ hall₁ (fun l' hl' => hflow l' (List.mem_cons_of_mem _ hl')) h

theorem feed_fault (flow : body.Flow graph A J P) (hgrow : graph.Grows g) (hall : g.All P)
    (hflow : ∀ l ∈ graph.protectors p, ∀ t, graph.catchType? l = some t → J l (f.caught t))
    (h : g.feed body.oracle p f = .error fault) : body.Clash J P := by
  rw [← hgrow.protectors_eq] at hflow
  exact flow.feedHandlers_fault hgrow hall hflow h

/-- Marking a join label fails only if frames clash. -/
theorem mark_fault (flow : body.Flow graph A J P) (hgrow : graph.Grows g) (hall : g.All P)
    (hjoin : graph.isJoin l = true) (hf : J l f) (h : g.mark body.oracle l f = .error fault) :
    body.Clash J P := by
  have hjoin' : g.isJoin l = true := (hgrow.isJoin l).trans hjoin
  rcases JoinGraph.cases_of_mark_error h with ⟨hnone, _⟩ | hrefusal | ⟨j, k, hj, hk, _, hfeed⟩
  · rw [hjoin'] at hnone
    cases hnone
  · exact clash_of_refusal hall hf hrefusal
  · -- refused not at the label but by a handler that protects it
    have hnode := (flow.built.grows hgrow).node_of_join? hj
    refine flow.feed_fault (hgrow.trans (.setJoin hj hk.grows))
      (hall.setJoin hj hk.label (flow.receive l j k f (hall l j hj) hf hk)) ?_ hfeed
    exact fun l' hl' t ht => flow.caughtJoin j.position l f l' t hnode hjoin hf hl' ht trivial

/-- A branch to join labels fails there only if frames clash. -/
theorem markTargets_fault (flow : body.Flow graph A J P) (hgrow : graph.Grows g) (hall : g.All P)
    (hjoin : ∀ l ∈ labels, graph.isJoin l = true) (hf : ∀ l ∈ labels, J l f)
    (h : JoinGraph.markTargets body.oracle f labels g work = .error fault) : body.Clash J P := by
  induction labels generalizing g work with
  | nil => cases h
  | cons l rest ih =>
    rw [JoinGraph.markTargets] at h
    have hl : l ∈ l :: rest := List.mem_cons_self ..
    cases hmark : g.mark body.oracle l f with
    | error fault' => exact flow.mark_fault hgrow hall (hjoin l hl) (hf l hl) hmark
    | ok result =>
      obtain ⟨g₁, changed⟩ := result
      rw [hmark] at h
      have hmarks := JoinGraph.marks_of_mark hmark
      -- whether the first label has changed decides only what is left to follow
      have hrest : ∃ work₁,
          JoinGraph.markTargets body.oracle f rest g₁ work₁ = .error fault := by
        simp only [bind, Except.bind] at h
        split at h
        · exact ⟨_, h⟩
        · exact ⟨_, h⟩
      obtain ⟨work₁, hrest⟩ := hrest
      exact ih (hgrow.trans hmarks.grows)
        (flow.marks hgrow hall (hf l hl) (fun _ _ _ => trivial) hmarks)
        (fun l' hl' => hjoin l' (List.mem_cons_of_mem _ hl'))
        (fun l' hl' => hf l' (List.mem_cons_of_mem _ hl')) hrest

/-- A machine that respects the properties fails only where they allow it. -/
theorem fails (flow : body.Flow graph A J P) (h : m.Respects graph A P) {e : Error}
    (hfails : m.Fails body e) : (∃ p f, A p f ∧ body.Stuck p f) ∨ body.Clash J P := by
  -- what fails is execution itself, or an arrival; the former is `Stuck`, the latter a clash
  cases hfails with
  | offEnd p f hpath hnode =>
    refine Or.inl ⟨p, f, h.path p f hpath, ?_⟩
    unfold Stuck
    rw [hnode]
    trivial
  | mark p f l fault hpath hnode hjoin hmark =>
    rw [h.grows.isJoin] at hjoin
    have hf := flow.arrive p l f hnode hjoin (h.path p f hpath)
    exact Or.inr (flow.mark_fault h.grows h.joins hjoin hf hmark)
  | feed p f node fault hpath hnode hinsn hfeed =>
    have hA := h.path p f hpath
    exact Or.inr (flow.feed_fault h.grows h.joins
      (fun l hl t ht => flow.caught p node f l t hnode hinsn hA hl ht) hfeed)
  | insn p f i fault hpath hnode hexec =>
    refine Or.inl ⟨p, f, h.path p f hpath, ?_⟩
    unfold Stuck
    rw [hnode]
    exact ⟨fault, hexec⟩
  | branch p f b fault hpath hnode hexec =>
    refine Or.inl ⟨p, f, h.path p f hpath, ?_⟩
    unfold Stuck
    rw [hnode]
    exact ⟨fault, hexec⟩
  | targets p f b g f' fault hpath hnode hfeed hexec hmark =>
    have hA := h.path p f hpath
    have hall := flow.feed h.grows h.joins
      (fun l hl t ht => flow.caught p _ f l t hnode rfl hA hl ht) hfeed
    exact Or.inr (flow.markTargets_fault (h.grows.trans (JoinGraph.grows_feed hfeed)) hall
      (flow.built.targets p b hnode) (flow.branch p b f f' hnode hA hexec).1 hmark)

end Body.Flow

end JvmFrames
