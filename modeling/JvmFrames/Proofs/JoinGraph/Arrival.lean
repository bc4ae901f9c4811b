import JvmFrames.JoinGraph.Flow

/-!
# What an arrival changes

A frame that arrives at a join point changes that join point and no other, and there only the
merged frame, the snapshots and the mark of a change. This module says once what `feed` and `mark`
can do, so that no later proof opens them:

* `JoinPoint.Receives`: a frame whose snapshot is new is merged into a join point;
* `JoinGraph.Feeds`: the locals of a frame flow into one handler;
* `JoinGraph.Marks`: a frame arrives at a label;
* `JoinGraph.Refusal`: a frame does not merge with the one at a label;
* `JoinGraph.feed_induction`: what every reception keeps, feeding all handlers of a position keeps.
-/

namespace JvmFrames

/-! ## Replacing one join point

A graph keeps its join points in a list, in which the labels do not come twice. Replacing one of
them is seen through `join?` only. -/

/-- In a list where the join points with the label of `k` are replaced by `k`, the first one with a
given label is `k` under its own label and the old one under any other. -/
theorem find?_map_replace (joins : List JoinPoint) (k : JoinPoint) (l : Label) :
    (joins.map fun j => if j.label = k.label then k else j).find? (fun j => j.label = l)
      = if l = k.label then (joins.find? fun j => j.label = l).map fun _ => k
        else joins.find? fun j => j.label = l := by
  induction joins with
  | nil => simp
  | cons j rest ih =>
    rw [List.map_cons, List.find?_cons, List.find?_cons, ih]
    by_cases hj : j.label = k.label
    · -- `j` is replaced: it has the label of `k`, and so cannot be found under another
      by_cases hl : l = k.label
      · simp [hj, hl]
      · have hne : ¬ k.label = l := fun h => hl h.symm
        rw [if_pos hj, hj]
        simp [hl, hne]
    · by_cases hl : j.label = l
      · have hne : ¬ l = k.label := fun h => hj (hl.trans h)
        simp [hl, hne]
      · simp [hj, hl]

namespace JoinGraph

variable {g g' : JoinGraph} {l : Label} {j k : JoinPoint}

/-- A join point is found under its own label. -/
theorem label_of_join? (h : g.join? l = some j) : j.label = l := by
  have hfound := List.find?_some h
  simpa using hfound

theorem mem_of_join? (h : g.join? l = some j) : j ∈ g.joins :=
  List.mem_of_find?_eq_some h

theorem isJoin_of_join? (h : g.join? l = some j) : g.isJoin l = true := by
  rw [isJoin, h, Option.isSome_some]

/-- Every join label has a join point. -/
theorem exists_join?_of_isJoin (h : g.isJoin l = true) : ∃ j, g.join? l = some j :=
  Option.isSome_iff_exists.mp h

/-- The frame at a label is the merged frame of its join point. -/
theorem frameAt?_of_join? (h : g.join? l = some j) : g.frameAt? l = j.merged := by
  rw [frameAt?, h, Option.bind_some]

theorem catchType?_of_join? (h : g.join? l = some j) :
    g.catchType? l = j.handler.map (·.catchType) := by
  rw [catchType?, h, Option.bind_some]

/-- A replaced join point is found under its own label, and every other one as before. -/
theorem join?_setJoin (h : g.join? l = some j) (hk : k.label = j.label) (l' : Label) :
    (g.setJoin k).join? l' = if l' = l then some k else g.join? l' := by
  have hkl : k.label = l := hk.trans (label_of_join? h)
  rw [join?, setJoin, find?_map_replace, hkl]
  by_cases hl : l' = l
  · have hfind : g.joins.find? (fun j => j.label = l) = some j := h
    rw [if_pos hl, if_pos hl, hl, hfind, Option.map_some]
  · rw [if_neg hl, if_neg hl, join?]

/-- Replacing a join point changes no label. -/
theorem labels_setJoin (g : JoinGraph) (k : JoinPoint) :
    (g.setJoin k).joins.map (·.label) = g.joins.map (·.label) := by
  rw [setJoin, List.map_map]
  apply List.map_congr_left
  intro i _
  show (if i.label = k.label then k else i).label = i.label
  by_cases hi : i.label = k.label
  · rw [if_pos hi, hi]
  · rw [if_neg hi]

theorem join?_setJoin_self (h : g.join? l = some j) (hk : k.label = j.label) :
    (g.setJoin k).join? l = some k := by
  rw [join?_setJoin h hk, if_pos rfl]

theorem join?_setJoin_ne (h : g.join? l = some j) (hk : k.label = j.label) {l' : Label}
    (hne : l' ≠ l) : (g.setJoin k).join? l' = g.join? l' := by
  rw [join?_setJoin h hk, if_neg hne]

end JoinGraph

/-! ## One reception

A join point takes in a frame only if its snapshot is new. Known frames change nothing, and frames
that do not merge are an error. -/

/-- The join point `j` becomes `k` when a frame arrives whose snapshot is new: the frame itself is
the merged frame if it is the first, and is merged into the current one otherwise. -/
inductive JoinPoint.Receives (oracle : Oracle) (j : JoinPoint) (f : Frame) : JoinPoint → Prop where
  | first (hnew : f.snapshot ∉ j.seen) (hnone : j.merged = none) :
      Receives oracle j f { j with seen := f.snapshot :: j.seen, merged := some f }
  | joined (current m : Frame) (hnew : f.snapshot ∉ j.seen) (hcurrent : j.merged = some current)
      (hmerge : current.merge oracle f = .ok m) :
      Receives oracle j f { j with seen := f.snapshot :: j.seen, merged := some m }

/-- With the mark of a change set if the merged frame differs from the earlier one. -/
def JoinPoint.alerted (k j : JoinPoint) : JoinPoint :=
  if k.merged = j.merged then k else k.withPending true

namespace JoinPoint

variable {oracle : Oracle} {j k : JoinPoint} {f : Frame}

@[simp] theorem withPending_label (j : JoinPoint) (b : Bool) :
    (j.withPending b).label = j.label := rfl

@[simp] theorem withPending_position (j : JoinPoint) (b : Bool) :
    (j.withPending b).position = j.position := rfl

@[simp] theorem withPending_merged (j : JoinPoint) (b : Bool) :
    (j.withPending b).merged = j.merged := rfl

@[simp] theorem withPending_seen (j : JoinPoint) (b : Bool) :
    (j.withPending b).seen = j.seen := rfl

@[simp] theorem withPending_catchType (j : JoinPoint) (b : Bool) :
    (j.withPending b).handler.map (·.catchType) = j.handler.map (·.catchType) := by
  rw [withPending, Option.map_map]
  rfl

/-- A handler is marked as it is told to be. -/
theorem isPending_withPending {s : HandlerState} (h : j.handler = some s) (b : Bool) :
    (j.withPending b).isPending = b := by
  simp [isPending, withPending, h]

@[simp] theorem alerted_label (k j : JoinPoint) : (k.alerted j).label = k.label := by
  rw [alerted]; split <;> rfl

@[simp] theorem alerted_position (k j : JoinPoint) : (k.alerted j).position = k.position := by
  rw [alerted]; split <;> rfl

@[simp] theorem alerted_merged (k j : JoinPoint) : (k.alerted j).merged = k.merged := by
  rw [alerted]; split <;> rfl

@[simp] theorem alerted_seen (k j : JoinPoint) : (k.alerted j).seen = k.seen := by
  rw [alerted]; split <;> rfl

@[simp] theorem alerted_catchType (k j : JoinPoint) :
    (k.alerted j).handler.map (·.catchType) = k.handler.map (·.catchType) := by
  rw [alerted]; split
  · rfl
  · exact withPending_catchType k true

namespace Receives

theorem label (h : j.Receives oracle f k) : k.label = j.label := by cases h <;> rfl

theorem position (h : j.Receives oracle f k) : k.position = j.position := by cases h <;> rfl

theorem handler (h : j.Receives oracle f k) : k.handler = j.handler := by cases h <;> rfl

/-- A reception adds one snapshot. -/
theorem seen (h : j.Receives oracle f k) : k.seen = f.snapshot :: j.seen := by cases h <;> rfl

/-- There is a merged frame after a reception. -/
theorem isSome_merged (h : j.Receives oracle f k) : k.merged.isSome := by cases h <;> rfl

/-- All frames that have been seen stay related to the merged frame, if merging keeps the relation
from either side. -/
theorem relates {R : Frame → Frame → Prop} (h : j.Receives oracle f k)
    (hj : ∀ f' : Frame, f'.snapshot ∈ j.seen → ∃ m, j.merged = some m ∧ R f' m)
    (hsame : ∀ f' : Frame, f'.snapshot = f.snapshot → R f' f)
    (hmerge : ∀ current m, j.merged = some current → current.merge oracle f = .ok m →
      ∀ f', R f' current ∨ R f' f → R f' m) :
    ∀ f' : Frame, f'.snapshot ∈ k.seen → ∃ m, k.merged = some m ∧ R f' m := by
  intro f' hseen
  cases h with
  | first hnew hnone =>
    rcases List.mem_cons.mp hseen with heq | hseen
    · exact ⟨f, rfl, hsame f' heq⟩
    · -- nothing had been seen, or there would have been a merged frame
      obtain ⟨merged, hsome, _⟩ := hj f' hseen
      rw [hnone] at hsome
      cases hsome
  | joined current m hnew hcurrent hmerged =>
    refine ⟨m, rfl, hmerge current m hcurrent hmerged f' ?_⟩
    rcases List.mem_cons.mp hseen with heq | hseen
    · exact Or.inr (hsame f' heq)
    · obtain ⟨merged, hsome, hrelated⟩ := hj f' hseen
      rw [hcurrent] at hsome
      cases hsome
      exact Or.inl hrelated

/-- A handler that receives a frame is marked if its merged frame changes, and keeps its mark. -/
theorem isPending_alerted {s : HandlerState} (h : j.Receives oracle f k) (hs : j.handler = some s)
    (hpend : k.merged ≠ j.merged ∨ j.isPending = true) : (k.alerted j).isPending = true := by
  have hks : k.handler = some s := h.handler.trans hs
  rw [alerted]
  split
  · next heq =>
    rcases hpend with hne | hj
    · exact absurd heq hne
    · rw [isPending, hks]
      rw [isPending, hs] at hj
      exact hj
  · exact isPending_withPending hks true

end Receives

/-- What happens to a frame that arrives: its snapshot is known, or it is received, or it does not
merge with the current frame. -/
theorem arrive_cases (oracle : Oracle) (j : JoinPoint) (f : Frame) :
    (f.snapshot ∈ j.seen ∧ j.arrive oracle f = .known)
      ∨ (∃ k, j.Receives oracle f k
          ∧ j.arrive oracle f = .merged k (decide (k.merged ≠ j.merged)))
      ∨ (∃ k current cause, j.merged = some current ∧ current.merge oracle f = .error cause
          ∧ j.arrive oracle f = .refused k
              (.incompatibleFrames j.label current.snapshot f.snapshot cause)) := by
  unfold arrive
  -- the three outcomes, in the order in which they are tested
  by_cases hseen : f.snapshot ∈ j.seen
  · exact Or.inl ⟨hseen, if_pos hseen⟩
  · right
    rw [if_neg hseen]
    cases hm : j.merged with
    | none => exact Or.inl ⟨_, .first hseen hm, by simp⟩
    | some current =>
      cases hmerge : current.merge oracle f with
      | ok m =>
        refine Or.inl ⟨_, .joined current m hseen hm hmerge, ?_⟩
        simp only [hmerge]
        simp
      | error cause =>
        refine Or.inr ⟨{ j with seen := f.snapshot :: j.seen }, current, cause, rfl, hmerge, ?_⟩
        simp only [hmerge, hm]

end JoinPoint

/-! ## Feeding handlers and marking labels

A handler sees the locals of each frame in its range, with the exception on an otherwise empty
stack. A label sees frames as they are; if its merged frame changes, the handlers that protect the
label see the frame as well. -/

namespace JoinGraph

variable {oracle : Oracle} {f : Frame} {g g' : JoinGraph} {l : Label} {j k : JoinPoint}

/-- The ways in which the locals of a frame flow into the handler at a label. -/
inductive Feeds (oracle : Oracle) (f : Frame) (l : Label) (g : JoinGraph) : JoinGraph → Prop where
  /-- The label is no entry of a handler. -/
  | idle (hnone : g.catchType? l = none) : Feeds oracle f l g g
  | known (j : JoinPoint) (s : HandlerState) (hj : g.join? l = some j) (hs : j.handler = some s)
      (hseen : (f.entering s).snapshot ∈ j.seen) : Feeds oracle f l g g
  | received (j k : JoinPoint) (s : HandlerState) (hj : g.join? l = some j)
      (hs : j.handler = some s) (hk : j.Receives oracle (f.entering s) k) :
      Feeds oracle f l g (g.setJoin (k.alerted j))

/-- The ways in which a frame arrives at a label, and whether the label is to be followed. -/
inductive Marks (oracle : Oracle) (f : Frame) (l : Label) (g : JoinGraph) :
    JoinGraph → Bool → Prop where
  | known (j : JoinPoint) (hj : g.join? l = some j) (hseen : f.snapshot ∈ j.seen) :
      Marks oracle f l g g false
  | unchanged (j k : JoinPoint) (hj : g.join? l = some j) (hk : j.Receives oracle f k)
      (hsame : k.merged = j.merged) : Marks oracle f l g (g.setJoin k) false
  /-- The handlers that protect the label itself see the frame as well. -/
  | changed (j k : JoinPoint) (g' : JoinGraph) (hj : g.join? l = some j)
      (hk : j.Receives oracle f k) (hnew : k.merged ≠ j.merged)
      (hfeed : (g.setJoin k).feed oracle j.position f = .ok g') : Marks oracle f l g g' true

/-- Feeding one handler is one of the three ways of `Feeds`. -/
theorem feeds_of_feedHandler (h : g.feedHandler oracle f l = .ok g') : Feeds oracle f l g g' := by
  unfold feedHandler at h
  cases hj : g.join? l with
  | none =>
    rw [hj] at h
    cases h
    exact .idle (by rw [catchType?, hj, Option.bind_none])
  | some j =>
    rw [hj] at h
    cases hs : j.handler with
    | none =>
      simp only [hs] at h
      cases h
      exact .idle (by rw [catchType?_of_join? hj, hs, Option.map_none])
    | some s =>
      simp only [hs] at h
      rcases j.arrive_cases oracle (f.entering s) with
        ⟨hseen, heq⟩ | ⟨k, hk, heq⟩ | ⟨k, _, _, _, _, heq⟩
      · rw [heq] at h
        cases h
        exact .known j s hj hs hseen
      · rw [heq] at h
        simp only [Except.ok.injEq] at h
        subst h
        -- a handler is marked here just as `alerted` marks it
        have hshape : (if decide (k.merged ≠ j.merged) = true then k.withPending true else k)
            = k.alerted j := by
          unfold JoinPoint.alerted
          by_cases hsame : k.merged = j.merged <;> simp [hsame]
        rw [hshape]
        exact .received j k s hj hs hk
      · rw [heq] at h
        cases h

/-- Marking a label is one of the three ways of `Marks`. -/
theorem marks_of_mark {changed : Bool} (h : g.mark oracle l f = .ok (g', changed)) :
    Marks oracle f l g g' changed := by
  unfold mark at h
  cases hj : g.join? l with
  | none => rw [hj] at h; cases h
  | some j =>
    rw [hj] at h
    simp only at h
    rcases j.arrive_cases oracle f with ⟨hseen, heq⟩ | ⟨k, hk, heq⟩ | ⟨k, _, _, _, _, heq⟩
    · rw [heq] at h
      cases h
      exact .known j hj hseen
    · rw [heq] at h
      by_cases hsame : k.merged = j.merged
      · simp only [hsame, ne_eq, not_true_eq_false, decide_false, Except.ok.injEq,
          Prod.mk.injEq] at h
        obtain ⟨rfl, rfl⟩ := h
        exact .unchanged j k hj hk hsame
      · -- only a change goes on to the handlers that protect the label
        simp only [ne_eq, hsame, not_false_eq_true, decide_true] at h
        cases hfeed : (g.setJoin k).feed oracle k.position f with
        | error fault => rw [hfeed] at h; cases h
        | ok g₁ =>
          rw [hfeed] at h
          cases h
          rw [hk.position] at hfeed
          exact .changed j k g' hj hk hsame hfeed
    · rw [heq] at h
      cases h

/-- A frame gets to a label whose merged frame it does not merge with. The fault names the two, and
the graph that is left differs from the one before in the snapshots of the label at most, of which
none is lost. -/
inductive Refusal (oracle : Oracle) (f : Frame) (l : Label) (g : JoinGraph) :
    Fault Error JoinGraph → Prop where
  | mk (j : JoinPoint) (current : Frame) (cause : FrameError) (seen : List (Snapshot VType))
      (hj : g.join? l = some j) (hcurrent : j.merged = some current)
      (hmerge : current.merge oracle f = .error cause) (hseen : j.seen ⊆ seen) :
      Refusal oracle f l g
        ⟨.incompatibleFrames l current.snapshot f.snapshot cause, g.setJoin { j with seen }⟩

/-- A refused arrival leaves the merged frame as it was. -/
theorem refusal_of_arrive {e : Error} (hj : g.join? l = some j)
    (h : j.arrive oracle f = .refused k e) : Refusal oracle f l g ⟨e, g.setJoin k⟩ := by
  unfold JoinPoint.arrive at h
  by_cases hseen : f.snapshot ∈ j.seen
  · rw [if_pos hseen] at h
    cases h
  · rw [if_neg hseen] at h
    cases hm : j.merged with
    | none => simp only [hm] at h; cases h
    | some current =>
      simp only [hm] at h
      cases hmerge : current.merge oracle f with
      | ok m => simp only [hmerge] at h; cases h
      | error cause =>
        simp only [hmerge, Arrival.refused.injEq] at h
        obtain ⟨rfl, rfl⟩ := h
        obtain rfl := label_of_join? hj
        rw [← hm]
        -- the snapshot is noted although the frame was refused
        exact .mk j current cause (f.snapshot :: j.seen) hj hm hmerge (List.subset_cons_self ..)

/-- A handler that cannot be fed refuses the frame with the exception it catches. -/
theorem refusal_of_feedHandler {fault : Fault Error JoinGraph}
    (h : g.feedHandler oracle f l = .error fault) :
    ∃ j s, g.join? l = some j ∧ j.handler = some s ∧ Refusal oracle (f.entering s) l g fault := by
  unfold feedHandler at h
  cases hj : g.join? l with
  | none => rw [hj] at h; cases h
  | some j =>
    rw [hj] at h
    cases hs : j.handler with
    | none => simp only [hs] at h; cases h
    | some s =>
      simp only [hs] at h
      -- a label that is no handler is passed over, so the arrival itself has failed
      cases harrive : j.arrive oracle (f.entering s) with
      | known => rw [harrive] at h; cases h
      | merged k changed => rw [harrive] at h; cases h
      | refused k e =>
        rw [harrive] at h
        cases h
        exact ⟨j, s, rfl, hs, refusal_of_arrive hj harrive⟩

/-- Why a frame cannot be marked: the label is no join point, or the frame is refused there, or it
changes the label and a handler that protects the label refuses it. -/
theorem cases_of_mark_error {fault : Fault Error JoinGraph}
    (h : g.mark oracle l f = .error fault) :
    (g.isJoin l = false ∧ fault = ⟨.unknownLabel l, g⟩)
      ∨ Refusal oracle f l g fault
      ∨ ∃ j k, g.join? l = some j ∧ j.Receives oracle f k ∧ k.merged ≠ j.merged
          ∧ (g.setJoin k).feed oracle j.position f = .error fault := by
  cases hj : g.join? l with
  | none =>
    unfold mark at h
    rw [hj] at h
    cases h
    exact Or.inl ⟨by rw [isJoin, hj]; rfl, rfl⟩
  | some j =>
    right
    unfold mark at h
    rw [hj] at h
    simp only at h
    rcases j.arrive_cases oracle f with ⟨_, heq⟩ | ⟨k, hk, heq⟩ | ⟨k, _, _, _, _, heq⟩
    · rw [heq] at h
      cases h
    · rw [heq] at h
      right
      -- received, so what failed is feeding the handlers, which only follows a change
      by_cases hsame : k.merged = j.merged
      · simp only [hsame, ne_eq, not_true_eq_false, decide_false] at h
        cases h
      · simp only [ne_eq, hsame, not_false_eq_true, decide_true] at h
        cases hfeed : (g.setJoin k).feed oracle k.position f with
        | ok g₁ => rw [hfeed] at h; cases h
        | error fault' =>
          rw [hfeed] at h
          cases h
          rw [hk.position] at hfeed
          exact ⟨j, k, rfl, hk, hsame, hfeed⟩
    · left
      rw [heq] at h
      cases h
      exact refusal_of_arrive hj heq

/-- What every reception of a handler keeps, feeding some handlers keeps. -/
theorem feedHandlers_induction {motive : JoinGraph → Prop} {labels : List Label}
    (hstep : ∀ g l j k s, l ∈ labels → motive g → g.join? l = some j → j.handler = some s →
      j.Receives oracle (f.entering s) k → motive (g.setJoin (k.alerted j)))
    (h : feedHandlers oracle f labels g = .ok g') (hg : motive g) : motive g' := by
  induction labels generalizing g with
  | nil => cases h; exact hg
  | cons l rest ih =>
    rw [feedHandlers] at h
    cases hl : g.feedHandler oracle f l with
    | error fault => rw [hl] at h; cases h
    | ok g₁ =>
      rw [hl] at h
      refine ih (fun g l j k s hmem => hstep g l j k s (List.mem_cons_of_mem _ hmem)) h ?_
      -- the first handler takes the frame or leaves the graph alone
      cases feeds_of_feedHandler hl with
      | idle _ => exact hg
      | known _ _ _ _ _ => exact hg
      | received j k s hj hs hk => exact hstep g l j k s (List.mem_cons_self ..) hg hj hs hk

/-- What every reception of a handler keeps, feeding the handlers of a position keeps. -/
theorem feed_induction {motive : JoinGraph → Prop} {p : Nat}
    (hstep : ∀ g₁ l j k s, l ∈ g.protectors p → motive g₁ → g₁.join? l = some j →
      j.handler = some s → j.Receives oracle (f.entering s) k → motive (g₁.setJoin (k.alerted j)))
    (h : g.feed oracle p f = .ok g') (hg : motive g) : motive g' :=
  feedHandlers_induction hstep h hg

end JoinGraph

end JvmFrames
