import JvmFrames.Proofs.Machine.Flow

/-!
# Calls to a join graph

From outside, a graph is called by marking a label with a frame or by feeding the handlers of a
position. `JoinGraph.serve` answers a list of calls, and what single arrivals keep at the join
points is kept by all of them (`JoinGraph.Carries.serve`).
-/

namespace JvmFrames

namespace JoinGraph

/-- A call to a graph from outside. -/
inductive Call where
  | mark (label : Label) (frame : Frame)
  | feed (position : Nat) (frame : Frame)
  deriving DecidableEq

def Call.frame : Call → Frame
  | mark _ f | feed _ f => f

/-- The graph after a call. -/
def Call.answer (oracle : Oracle) (g : JoinGraph) : Call → Outcome JoinGraph
  | mark l f => do
    let (g, _) ← g.mark oracle l f
    return g
  | feed p f => g.feed oracle p f

/-- The graph after some calls, none of which fails. -/
def serve (oracle : Oracle) : List Call → JoinGraph → Outcome JoinGraph
  | [], g => .ok g
  | c :: rest, g => do
    let g ← c.answer oracle g
    serve oracle rest g

variable {oracle : Oracle} {g g' : JoinGraph} {l : Label} {f : Frame} {c : Call}
variable {calls rest : List Call}

/-- A call that marks a label is one of the ways in which a frame arrives there. -/
theorem marks_of_answer (h : (Call.mark l f).answer oracle g = .ok g') :
    ∃ changed, Marks oracle f l g g' changed := by
  rw [Call.answer] at h
  cases hmark : g.mark oracle l f with
  | error fault => rw [hmark] at h; cases h
  | ok result =>
    obtain ⟨g₁, changed⟩ := result
    rw [hmark] at h
    cases h
    exact ⟨changed, marks_of_mark hmark⟩

/-- A list of calls is answered one by one. -/
theorem serve_cons (h : serve oracle (c :: rest) g = .ok g') :
    ∃ g₁, c.answer oracle g = .ok g₁ ∧ serve oracle rest g₁ = .ok g' := by
  rw [serve] at h
  cases hc : c.answer oracle g with
  | error fault => rw [hc] at h; cases h
  | ok g₁ =>
    rw [hc] at h
    exact ⟨g₁, rfl, h⟩

theorem Call.grows (h : c.answer oracle g = .ok g') : g.Grows g' := by
  cases c with
  | mark l f =>
    obtain ⟨changed, hmarks⟩ := marks_of_answer h
    exact hmarks.grows
  | feed p f => exact grows_feed h

/-- A graph only grows while it answers calls. -/
theorem grows_serve (h : serve oracle calls g = .ok g') : g.Grows g' := by
  induction calls generalizing g with
  | nil => cases h; exact .refl _
  | cons c rest ih =>
    obtain ⟨g₁, hc, hrest⟩ := serve_cons h
    exact (Call.grows hc).trans (ih hrest)

/-- A frame that was marked at a label has been seen there. -/
theorem seen_of_serve (h : serve oracle calls g = .ok g') (hmem : .mark l f ∈ calls) :
    g'.Seen l f := by
  -- a frame marked by the first call is not forgotten while the others are answered
  induction calls generalizing g with
  | nil => cases hmem
  | cons c rest ih =>
    obtain ⟨g₁, hc, hrest⟩ := serve_cons h
    rcases List.mem_cons.mp hmem with rfl | hmem
    · obtain ⟨changed, hmarks⟩ := marks_of_answer hc
      exact (grows_serve hrest).seen hmarks.seen
    · exact ih hrest hmem

/-- Where nothing has arrived, all that has been seen is as one likes. -/
theorem Fresh.all_seen (h : g.Fresh) (P : Label → JoinPoint → Frame → Prop) :
    g.All fun l j => ∀ f : Frame, f.snapshot ∈ j.seen → P l j f := by
  intro l j hj f hf
  rw [(h l j hj).2.1] at hf
  cases hf

/-- `Q` of the frames that calls bring, `J` of those that arrive at labels and `P` of join points
follow from one another. -/
structure Carries (graph : JoinGraph) (oracle : Oracle) (Q : Frame → Prop)
    (J : Label → Frame → Prop) (P : Label → JoinPoint → Prop) : Prop where
  caught : ∀ l f t, Q f → graph.catchType? l = some t → J l (f.caught t)
  receive : ∀ l j k f, P l j → J l f → j.Receives oracle f k → P l k
  pending : ∀ l j b, P l j → P l (j.withPending b)

namespace Carries

variable {graph : JoinGraph} {Q : Frame → Prop} {J : Label → Frame → Prop}
variable {P : Label → JoinPoint → Prop} {labels : List Label}

/-- What is fed into handlers keeps the property of join points. -/
theorem feedHandlers (hcarries : graph.Carries oracle Q J P) (hgrow : graph.Grows g)
    (hall : g.All P) (hf : Q f) (h : JoinGraph.feedHandlers oracle f labels g = .ok g') :
    g'.All P := by
  refine (feedHandlers_induction
    (motive := fun g₁ => graph.Grows g₁ ∧ g₁.All P) ?_ h ⟨hgrow, hall⟩).2
  rintro g₁ l j k s _ ⟨hgrow₁, hall₁⟩ hj hs hk
  have ht : graph.catchType? l = some s.catchType := by
    rw [← hgrow₁.catchType?_eq l, catchType?_of_join? hj, hs]
    rfl
  have hP := hcarries.receive l j k _ (hall₁ l j hj) (hcarries.caught l f _ hf ht) hk
  refine ⟨hgrow₁.trans (.setJoin hj hk.grows_alerted), hall₁.setJoin hj hk.grows_alerted.label ?_⟩
  unfold JoinPoint.alerted
  split
  · exact hP
  · exact hcarries.pending l k true hP

/-- A frame that arrives keeps the property of join points, with the handlers that its label passes
it on to. -/
theorem marks {changed : Bool} (hcarries : graph.Carries oracle Q J P) (hgrow : graph.Grows g)
    (hall : g.All P) (hf : Q f) (hJ : J l f) (h : Marks oracle f l g g' changed) : g'.All P := by
  cases h with
  | known j hj _ => exact hall
  | unchanged j k hj hk _ =>
    exact hall.setJoin hj hk.label (hcarries.receive l j k f (hall l j hj) hJ hk)
  | changed j k g' hj hk _ hfeed =>
    exact hcarries.feedHandlers (hgrow.trans (.setJoin hj hk.grows))
      (hall.setJoin hj hk.label (hcarries.receive l j k f (hall l j hj) hJ hk)) hf hfeed

/-- One call keeps the property of join points. -/
theorem answer (hcarries : graph.Carries oracle Q J P) (hgrow : graph.Grows g) (hall : g.All P)
    (hf : Q c.frame) (hJ : ∀ l f, c = .mark l f → J l f) (h : c.answer oracle g = .ok g') :
    g'.All P := by
  cases c with
  | mark l f =>
    obtain ⟨changed, hmarks⟩ := marks_of_answer h
    exact hcarries.marks hgrow hall hf (hJ l f rfl) hmarks
  | feed p f => exact hcarries.feedHandlers hgrow hall hf h

/-- All calls keep the property of join points. -/
theorem serve (hcarries : graph.Carries oracle Q J P) (hgrow : graph.Grows g) (hall : g.All P)
    (hf : ∀ c ∈ calls, Q c.frame) (hJ : ∀ l f, .mark l f ∈ calls → J l f)
    (h : JoinGraph.serve oracle calls g = .ok g') : g'.All P := by
  induction calls generalizing g with
  | nil => cases h; exact hall
  | cons c rest ih =>
    obtain ⟨g₁, hc, hrest⟩ := serve_cons h
    have hmem : c ∈ c :: rest := List.mem_cons_self ..
    exact ih (hgrow.trans (Call.grows hc))
      (hcarries.answer hgrow hall (hf c hmem) (fun l f heq => hJ l f (heq ▸ hmem)) hc)
      (fun c' hc' => hf c' (List.mem_cons_of_mem _ hc'))
      (fun l f hmark => hJ l f (List.mem_cons_of_mem _ hmark)) hrest

end Carries

end JoinGraph

end JvmFrames
