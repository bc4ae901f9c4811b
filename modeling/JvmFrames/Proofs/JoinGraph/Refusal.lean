import JvmFrames.Hierarchy
import JvmFrames.JoinGraph.Build
import JvmFrames.Proofs.JoinGraph.Calls

/-!
# What a refused frame leaves behind

A call to `feed` or `mark` lets a frame arrive at several join points, one after the other, and ends
at the first that refuses it. The join point that refuses keeps its merged frame and its mark of a
change (`JoinGraph.Refusal`), and those that come after it are not touched at all. Those that came
before it keep what they have received: nothing is taken back.
-/

namespace JvmFrames

namespace JoinGraph

variable {oracle : Oracle} {f : Frame} {g : JoinGraph} {l : Label}
variable {labels : List Label} {fault : Fault Error JoinGraph}

/-- Apart from the join points of some labels, a later graph has those of an earlier one, but for
the snapshots of one label, which may have become more. -/
def KeepsApart (accepted : List Label) (refusing : Label) (g g' : JoinGraph) : Prop :=
  ∀ l ∉ accepted, ∀ j, g.join? l = some j →
    ∃ seen, g'.join? l = some { j with seen } ∧ j.seen ⊆ seen ∧ (l ≠ refusing → seen = j.seen)

/-- The handlers of some labels receive the locals of a frame in turn, down to one that refuses. -/
structure Interrupted (oracle : Oracle) (f : Frame) (labels : List Label) (g : JoinGraph)
    (fault : Fault Error JoinGraph) (accepted : List Label) (refusing : Label) : Prop where
  labels : ∃ after, labels = accepted ++ refusing :: after
  refusal : ∃ g₁ t, feedHandlers oracle f accepted g = .ok g₁ ∧ g.catchType? refusing = some t
    ∧ Refusal oracle (f.caught t) refusing g₁ fault

/-! ## One arrival

A join point that refuses a frame may have noted its snapshot, but has not touched its merged frame.
-/

/-- Nothing is replaced where the refusal did not happen, and there no more than the snapshots. -/
theorem Refusal.keepsApart (h : Refusal oracle f l g fault) : KeepsApart [] l g fault.left := by
  obtain ⟨j, current, cause, seen, hj, hcurrent, hmerge, hseen⟩ := h
  intro l' _ i hi
  by_cases hl : l' = l
  · subst hl
    rw [hj] at hi
    cases hi
    exact ⟨seen, join?_setJoin_self hj rfl, hseen, fun hne => absurd rfl hne⟩
  · exact ⟨i.seen, (join?_setJoin_ne (k := { j with seen }) hj rfl hl).trans hi, List.Subset.refl _,
      fun _ => rfl⟩

/-! ## One call

Several join points may take part in one call. Those that come before the one that refuses have
received the frame, and keep it. -/

/-- Feeding stops at the first handler that refuses. -/
theorem interrupted_of_feedHandlers (h : feedHandlers oracle f labels g = .error fault) :
    ∃ accepted refusing, Interrupted oracle f labels g fault accepted refusing := by
  induction labels generalizing g with
  | nil => cases h
  | cons l rest ih =>
    rw [feedHandlers] at h
    cases hfirst : g.feedHandler oracle f l with
    | error fault' =>
      rw [hfirst] at h
      cases h
      obtain ⟨j, s, hj, hs, hrefusal⟩ := refusal_of_feedHandler hfirst
      have ht : g.catchType? l = some s.catchType := by
        rw [catchType?_of_join? hj, hs]
        rfl
      exact ⟨[], l, ⟨rest, rfl⟩, g, s.catchType, rfl, ht, hrefusal⟩
    -- the first handler has accepted, so it joins those that did in the rest
    | ok g₁ =>
      rw [hfirst] at h
      obtain ⟨accepted, refusing, ⟨after, hrest⟩, g₂, t, hfed, ht, hrefusal⟩ := ih h
      refine ⟨l :: accepted, refusing, ⟨after, by rw [hrest]; rfl⟩, g₂, t, ?_, ?_, hrefusal⟩
      · rw [feedHandlers, hfirst]
        exact hfed
      · rw [← (feeds_of_feedHandler hfirst).grows.catchType?_eq]
        exact ht

/-- Handlers that come after the one that refuses are as they were. -/
theorem Interrupted.keepsApart {accepted : List Label} {refusing : Label}
    (h : Interrupted oracle f labels g fault accepted refusing) :
    KeepsApart accepted refusing g fault.left := by
  obtain ⟨g₁, t, hfed, _, hrefusal⟩ := h.refusal
  intro l hl j hj
  rw [← join?_of_feedHandlers hfed hl] at hj
  exact hrefusal.keepsApart l List.not_mem_nil j hj

/-- A call that fails has changed no merged frame and no mark of a change, other than by the
arrivals that came before the one that is refused. Feeding the handlers of a position, these are the
handlers before it in the exception table; marking a label, they are none, or the label itself and
the handlers that protect it down to the one that refuses. -/
theorem refusal_keeps_all_but_earlier_arrivals (oracle : Oracle) (g : JoinGraph) (f : Frame)
    (fault : Fault Error JoinGraph) :
    (∀ p, g.feed oracle p f = .error fault →
      ∃ accepted refusing, Interrupted oracle f (g.protectors p) g fault accepted refusing
        ∧ KeepsApart accepted refusing g fault.left)
    ∧ ∀ l, g.mark oracle l f = .error fault →
      (g.isJoin l = false ∧ fault = ⟨.unknownLabel l, g⟩)
        ∨ (Refusal oracle f l g fault ∧ KeepsApart [] l g fault.left)
        ∨ ∃ j k accepted refusing, g.join? l = some j ∧ j.Receives oracle f k
            ∧ k.merged ≠ j.merged
            ∧ Interrupted oracle f (g.protectors j.position) (g.setJoin k) fault accepted refusing
            ∧ KeepsApart (l :: accepted) refusing g fault.left := by
  constructor
  · intro p h
    obtain ⟨accepted, refusing, hinterrupted⟩ := interrupted_of_feedHandlers h
    exact ⟨accepted, refusing, hinterrupted, hinterrupted.keepsApart⟩
  · intro l h
    rcases cases_of_mark_error h with hunknown | hrefusal | ⟨j, k, hj, hk, hne, hfeed⟩
    · exact Or.inl hunknown
    · exact Or.inr (Or.inl ⟨hrefusal, hrefusal.keepsApart⟩)
    · obtain ⟨accepted, refusing, hinterrupted⟩ := interrupted_of_feedHandlers hfeed
      refine Or.inr (Or.inr ⟨j, k, accepted, refusing, hj, hk, hne, hinterrupted, ?_⟩)
      -- the label has received the frame, so nothing is said of it
      intro l' hl' i hi
      obtain ⟨hne', hrest⟩ := not_or.mp (mt List.mem_cons.mpr hl')
      rw [← join?_setJoin_ne hj hk.label hne'] at hi
      exact hinterrupted.keepsApart l' hrest i hi

end JoinGraph

/-! ## Two handlers of one range

Of two handlers that protect the same instruction, the first accepts what the second refuses. -/

namespace Rivals

/-- One instruction between labels 0 and 1, and two handlers that only throw again. -/
def code : Code where
  nodes := #[
    .label ⟨0⟩,
    .insn .nop,
    .label ⟨1⟩,
    .branch .returnVoid,
    .label ⟨2⟩,
    .branch .throw,
    .label ⟨3⟩,
    .branch .throw]
  nextLabel := 4

/-- Both handlers are for the one instruction, and the handler at label 2 comes first. -/
def ranges : List ProtectedRange := [⟨⟨0⟩, ⟨1⟩, ⟨2⟩, none⟩, ⟨⟨0⟩, ⟨1⟩, ⟨3⟩, none⟩]

/-- An integer in the first local. -/
def frame : Frame := .ofValues [.integer] []

end Rivals

namespace JoinGraph

/-- The second handler has a frame with an empty stack and refuses what is caught, after the first
one has accepted it. -/
theorem refusal_keeps_all_but_earlier_arrivals_rivals :
    ∃ g₀ g fault, build Hierarchy.javaLang.common Rivals.code Rivals.ranges = .ok g₀
      ∧ serve Hierarchy.javaLang.common [.mark ⟨3⟩ .empty] g₀ = .ok g
      ∧ g.feed Hierarchy.javaLang.common 1 Rivals.frame = .error fault
      ∧ ∃ accepted refusing, Interrupted Hierarchy.javaLang.common Rivals.frame (g.protectors 1) g
            fault accepted refusing
          ∧ KeepsApart accepted refusing g fault.left :=
  ⟨_, _, _, rfl, rfl, rfl, (refusal_keeps_all_but_earlier_arrivals _ _ _ _).1 1 rfl⟩

/-- The second handler refuses what the first has received: the first one has a frame now, and the
same call succeeds when it is made again. -/
theorem refused_feed_changes_graph :
    ∃ g₀ g fault, build Hierarchy.javaLang.common Rivals.code Rivals.ranges = .ok g₀
      ∧ serve Hierarchy.javaLang.common [.mark ⟨3⟩ .empty] g₀ = .ok g
      ∧ g.feed Hierarchy.javaLang.common 1 Rivals.frame = .error fault
      ∧ fault.cause = .incompatibleFrames ⟨3⟩ Frame.empty.snapshot
          (Rivals.frame.caught .throwable).snapshot (.depthMismatch 0 1)
      ∧ g.frameAt? ⟨2⟩ = none
      ∧ fault.left.frameAt? ⟨2⟩ = some (Rivals.frame.caught .throwable)
      ∧ fault.left.feed Hierarchy.javaLang.common 1 Rivals.frame = .ok fault.left :=
  ⟨_, _, _, rfl, rfl, rfl, rfl, rfl, rfl, rfl⟩

end JoinGraph

end JvmFrames
