import JvmFrames.Proofs.JoinGraph.Arrival
import JvmFrames.Analysis.Machine

/-!
# How a join graph grows

What holds of a graph before and after any number of arrivals (`JoinGraph.Grows`): labels,
positions, guards and catch types are the same, and no snapshot is forgotten. Whatever arrives is
seen afterwards (`JoinGraph.Seen`), and a merged frame that changes leaves a trace by which the
change is taken up later (`JoinGraph.Alerts`): the handler is marked, or the new frame is among the
paths still to follow.
-/

namespace JvmFrames

/-- The frame on entry to a handler that catches exceptions of a type. -/
def Frame.caught (f : Frame) (t : RefType) : Frame := { f with stack := [.object t] }

/-- What a join point keeps and gains while frames arrive. -/
structure JoinPoint.Grows (j k : JoinPoint) : Prop where
  label : k.label = j.label
  position : k.position = j.position
  catchType : k.handler.map (·.catchType) = j.handler.map (·.catchType)
  seen : ∀ s ∈ j.seen, s ∈ k.seen

namespace JoinPoint

variable {oracle : Oracle} {f : Frame} {j k i : JoinPoint}

theorem Grows.refl (j : JoinPoint) : j.Grows j := ⟨rfl, rfl, rfl, fun _ h => h⟩

theorem Grows.trans (h : i.Grows j) (h' : j.Grows k) : i.Grows k where
  label := h'.label.trans h.label
  position := h'.position.trans h.position
  catchType := h'.catchType.trans h.catchType
  seen := fun s hs => h'.seen s (h.seen s hs)

/-- A join point grows by what it receives. -/
theorem Receives.grows (h : j.Receives oracle f k) : j.Grows k where
  label := h.label
  position := h.position
  catchType := by rw [h.handler]
  seen := fun s hs => by rw [h.seen]; exact List.mem_cons_of_mem _ hs

theorem Receives.grows_alerted (h : j.Receives oracle f k) : j.Grows (k.alerted j) :=
  h.grows.trans
    ⟨alerted_label k j, alerted_position k j, alerted_catchType k j, fun s hs => by simpa using hs⟩

/-- The mark of a join point is not part of what grows. -/
theorem grows_withPending (j : JoinPoint) (b : Bool) : j.Grows (j.withPending b) :=
  ⟨rfl, rfl, withPending_catchType j b, fun _ hs => hs⟩

end JoinPoint

namespace JoinGraph

variable {oracle : Oracle} {f : Frame} {g g' g₁ : JoinGraph} {l : Label} {j k : JoinPoint}
variable {p : Nat}

/-- What a graph keeps and gains while frames arrive. -/
structure Grows (g g' : JoinGraph) : Prop where
  placements : g'.placements = g.placements
  guards : g'.guards = g.guards
  labels : g'.joins.map (·.label) = g.joins.map (·.label)
  join : ∀ l j, g.join? l = some j → ∃ k, g'.join? l = some k ∧ j.Grows k

/-- The snapshot of a frame has arrived at a label. -/
def Seen (g : JoinGraph) (l : Label) (f : Frame) : Prop :=
  ∃ j, g.join? l = some j ∧ f.snapshot ∈ j.seen

/-- The frame on entry to each handler that protects a position, from a frame there, arrives in the
given sense. -/
def Catches (g : JoinGraph) (arrives : Label → Frame → Prop) (p : Nat) (f : Frame) : Prop :=
  ∀ l ∈ g.protectors p, ∃ t ∈ g.catchType? l, arrives l (f.caught t)

instance (g : JoinGraph) (arrives : Label → Frame → Prop) [∀ l f, Decidable (arrives l f)] (p : Nat)
    (f : Frame) : Decidable (g.Catches arrives p f) :=
  inferInstanceAs (Decidable (∀ l ∈ g.protectors p, ∃ t ∈ g.catchType? l, arrives l (f.caught t)))

/-- The join labels are the labels of the join points. -/
theorem isJoin_iff_mem_labels : g.isJoin l = true ↔ l ∈ g.joins.map (·.label) := by
  rw [isJoin, join?, List.find?_isSome]
  constructor
  · rintro ⟨j, hmem, hl⟩
    exact List.mem_map.mpr ⟨j, hmem, by simpa using hl⟩
  · intro h
    obtain ⟨j, hmem, hl⟩ := List.mem_map.mp h
    exact ⟨j, hmem, by simpa using hl⟩

namespace Grows

theorem refl (g : JoinGraph) : g.Grows g :=
  ⟨rfl, rfl, rfl, fun _ j h => ⟨j, h, .refl j⟩⟩

theorem trans (h : g.Grows g₁) (h' : g₁.Grows g') : g.Grows g' where
  placements := h'.placements.trans h.placements
  guards := h'.guards.trans h.guards
  labels := h'.labels.trans h.labels
  join := fun l j hj => by
    obtain ⟨j₁, hj₁, hgrow⟩ := h.join l j hj
    obtain ⟨k, hk, hgrow'⟩ := h'.join l j₁ hj₁
    exact ⟨k, hk, hgrow.trans hgrow'⟩

theorem isJoin (h : g.Grows g') (l : Label) : g'.isJoin l = g.isJoin l := by
  rw [Bool.eq_iff_iff, isJoin_iff_mem_labels, isJoin_iff_mem_labels, h.labels]

/-- Positions do not change. -/
theorem position_eq (h : g.Grows g') (l : Label) : g'.position l = g.position l := by
  rw [position, position, h.placements]

theorem protectors_eq (h : g.Grows g') (p : Nat) : g'.protectors p = g.protectors p := by
  rw [protectors, protectors, h.guards]

/-- The join point a later one has grown from. -/
theorem join_of_later (h : g.Grows g') (hk : g'.join? l = some k) :
    ∃ j, g.join? l = some j ∧ j.Grows k := by
  have hjoin : g.isJoin l = true := by rw [← h.isJoin l]; exact isJoin_of_join? hk
  obtain ⟨j, hj⟩ := exists_join?_of_isJoin hjoin
  obtain ⟨k', hk', hgrow⟩ := h.join l j hj
  rw [hk] at hk'
  cases hk'
  exact ⟨j, hj, hgrow⟩

/-- Handlers go on catching what they have caught. -/
theorem catchType?_eq (h : g.Grows g') (l : Label) : g'.catchType? l = g.catchType? l := by
  cases hk : g'.join? l with
  | some k =>
    obtain ⟨j, hj, hgrow⟩ := h.join_of_later hk
    rw [catchType?_of_join? hk, catchType?_of_join? hj, hgrow.catchType]
  | none =>
    cases hj : g.join? l with
    | none => rw [catchType?, catchType?, hk, hj]
    | some j =>
      obtain ⟨k, hk', _⟩ := h.join l j hj
      rw [hk] at hk'
      cases hk'

/-- What has been seen stays seen. -/
theorem seen (h : g.Grows g') (hseen : g.Seen l f) : g'.Seen l f := by
  obtain ⟨j, hj, hmem⟩ := hseen
  obtain ⟨k, hk, hgrow⟩ := h.join l j hj
  exact ⟨k, hk, hgrow.seen _ hmem⟩

/-- What the handlers of a position have seen they have seen later on. -/
theorem catches (h : g.Grows g') (hcatch : g.Catches g.Seen p f) : g'.Catches g'.Seen p f := by
  intro l hl
  rw [h.protectors_eq] at hl
  obtain ⟨t, ht, hseen⟩ := hcatch l hl
  exact ⟨t, (h.catchType?_eq l).trans ht, h.seen hseen⟩

/-- Replacing a join point by one it has grown to. -/
theorem setJoin (hj : g.join? l = some j) (hk : j.Grows k) : g.Grows (g.setJoin k) where
  placements := rfl
  guards := rfl
  labels := labels_setJoin g k
  join := fun l' i hi => by
    rw [join?_setJoin hj hk.label]
    by_cases hl : l' = l
    · subst hl
      rw [hj] at hi
      cases hi
      exact ⟨k, if_pos rfl, hk⟩
    · exact ⟨i, by rw [if_neg hl, hi], .refl i⟩

end Grows

/-! ## What arrives is seen

A frame that arrives is known or received, and in both cases its snapshot is among those seen
afterwards. -/

theorem Feeds.grows (h : Feeds oracle f l g g') : g.Grows g' := by
  cases h with
  | idle _ => exact .refl g
  | known _ _ _ _ _ => exact .refl g
  | received j k s hj _ hk => exact .setJoin hj hk.grows_alerted

/-- A handler that was fed has seen what it catches from the frame. -/
theorem Feeds.seen {t : RefType} (h : Feeds oracle f l g g') (ht : g.catchType? l = some t) :
    g'.Seen l (f.caught t) := by
  cases h with
  | idle hnone => rw [hnone] at ht; cases ht
  | known j s hj hs hseen =>
    rw [catchType?_of_join? hj, hs] at ht
    cases ht
    exact ⟨j, hj, hseen⟩
  | received j k s hj hs hk =>
    rw [catchType?_of_join? hj, hs] at ht
    cases ht
    refine ⟨k.alerted j, join?_setJoin_self hj hk.grows_alerted.label, ?_⟩
    rw [JoinPoint.alerted_seen, hk.seen]
    exact List.mem_cons_self ..

/-- Feeding handlers only adds to the graph. -/
theorem grows_feedHandlers {labels : List Label} (h : feedHandlers oracle f labels g = .ok g') :
    g.Grows g' :=
  feedHandlers_induction (fun _ _ _ _ _ _ hg hj _ hk => hg.trans (.setJoin hj hk.grows_alerted)) h
    (.refl g)

theorem grows_feed (h : g.feed oracle p f = .ok g') : g.Grows g' := grows_feedHandlers h

/-- Feeding some handlers leaves every other join point alone. -/
theorem join?_of_feedHandlers {labels : List Label} (h : feedHandlers oracle f labels g = .ok g')
    (hl : l ∉ labels) : g'.join? l = g.join? l := by
  refine feedHandlers_induction (motive := fun g₁ => g₁.join? l = g.join? l) ?_ h rfl
  intro g₁ l' j k s hl' hg₁ hj _ hk
  have hne : l ≠ l' := fun heq => hl (heq ▸ hl')
  rw [join?_setJoin_ne hj hk.grows_alerted.label hne, hg₁]

/-- Each of the handlers that were fed has seen what it catches from the frame. -/
theorem seen_of_feedHandlers {labels : List Label} (h : feedHandlers oracle f labels g = .ok g')
    {t : RefType} (hl : l ∈ labels) (ht : g.catchType? l = some t) : g'.Seen l (f.caught t) := by
  induction labels generalizing g with
  | nil => cases hl
  | cons l₀ rest ih =>
    rw [feedHandlers] at h
    cases hfirst : g.feedHandler oracle f l₀ with
    | error fault => rw [hfirst] at h; cases h
    | ok g₁ =>
      rw [hfirst] at h
      have hfeeds := feeds_of_feedHandler hfirst
      rcases List.mem_cons.mp hl with rfl | hrest
      · -- fed first, and not forgotten while the rest is fed
        exact (grows_feedHandlers h).seen (hfeeds.seen ht)
      · exact ih h hrest ((hfeeds.grows.catchType?_eq l).trans ht)

/-- A frame that arrives at a label only adds to the graph. -/
theorem Marks.grows {changed : Bool} (h : Marks oracle f l g g' changed) : g.Grows g' := by
  cases h with
  | known _ _ _ => exact .refl g
  | unchanged j k hj hk _ => exact .setJoin hj hk.grows
  | changed j k g' hj hk _ hfeed => exact (Grows.setJoin hj hk.grows).trans (grows_feed hfeed)

/-- A frame that arrives at a label has been seen there. -/
theorem Marks.seen {changed : Bool} (h : Marks oracle f l g g' changed) : g'.Seen l f := by
  have hset : ∀ j k, g.join? l = some j → j.Receives oracle f k → (g.setJoin k).Seen l f := by
    intro j k hj hk
    refine ⟨k, join?_setJoin_self hj hk.label, ?_⟩
    rw [hk.seen]
    exact List.mem_cons_self ..
  cases h with
  | known j hj hseen => exact ⟨j, hj, hseen⟩
  | unchanged j k hj hk _ => exact hset j k hj hk
  | changed j k g' hj hk _ hfeed => exact (grows_feed hfeed).seen (hset j k hj hk)

/-! ## The targets of a branch

The frame of a branch is brought to one target after the other. A target that changes is put on the
work list, before those that were there. -/

/-- What the arrival of a frame at one label keeps, its arrival at some labels keeps. A label that
changes puts its merged frame before the paths still to follow. -/
theorem markTargets_induction {motive : JoinGraph → List (Nat × Frame) → Prop}
    {labels : List Label} {work work' : List (Nat × Frame)}
    (hkept : ∀ g₁ g₂ work l, l ∈ labels → motive g₁ work → Marks oracle f l g₁ g₂ false →
      motive g₂ work)
    (hchanged : ∀ g₁ g₂ work l k, l ∈ labels → motive g₁ work → Marks oracle f l g₁ g₂ true →
      g₂.join? l = some k → motive g₂ ((k.position + 1, k.merged.getD f) :: work))
    (h : markTargets oracle f labels g work = .ok (g', work')) (hg : motive g work) :
    motive g' work' := by
  induction labels generalizing g work with
  | nil => cases h; exact hg
  | cons l rest ih =>
    -- the hypotheses for all labels, restricted to the rest of them
    have ih' : ∀ {g work}, markTargets oracle f rest g work = .ok (g', work') → motive g work →
        motive g' work' :=
      ih (fun g₁ g₂ work l hl => hkept g₁ g₂ work l (List.mem_cons_of_mem _ hl))
        (fun g₁ g₂ work l k hl => hchanged g₁ g₂ work l k (List.mem_cons_of_mem _ hl))
    rw [markTargets] at h
    cases hmark : g.mark oracle l f with
    | error fault => rw [hmark] at h; cases h
    | ok result =>
      obtain ⟨g₁, changed⟩ := result
      rw [hmark] at h
      have hmarks := marks_of_mark hmark
      have hl : l ∈ l :: rest := List.mem_cons_self ..
      cases changed with
      | false => exact ih' h (hkept g g₁ work l hl hg hmarks)
      | true =>
        -- the label has a join point, so the path behind it is known
        obtain ⟨k, hk, _⟩ := hmarks.seen
        simp only [bind, Except.bind, hk] at h
        exact ih' h (hchanged g g₁ work l k hl hg hmarks hk)

/-- A branch only adds to the graph. -/
theorem grows_markTargets {labels : List Label} {work work' : List (Nat × Frame)}
    (h : markTargets oracle f labels g work = .ok (g', work')) : g.Grows g' :=
  markTargets_induction (motive := fun g₁ _ => g.Grows g₁)
    (fun _ _ _ _ _ hg hmarks => hg.trans hmarks.grows)
    (fun _ _ _ _ _ _ hg hmarks _ => hg.trans hmarks.grows) h (.refl g)

/-- Every target of a branch has seen its frame. -/
theorem seen_of_markTargets {labels : List Label} {work work' : List (Nat × Frame)}
    (h : markTargets oracle f labels g work = .ok (g', work')) (hl : l ∈ labels) : g'.Seen l f := by
  induction labels generalizing g work with
  | nil => cases hl
  | cons l₀ rest ih =>
    rw [markTargets] at h
    cases hmark : g.mark oracle l₀ f with
    | error fault => rw [hmark] at h; cases h
    | ok result =>
      obtain ⟨g₁, changed⟩ := result
      rw [hmark] at h
      have hmarks := marks_of_mark hmark
      -- whatever was pushed, the rest of the labels is marked in a graph grown from `g₁`
      have hrest : ∃ work₁, markTargets oracle f rest g₁ work₁ = .ok (g', work') := by
        simp only [bind, Except.bind] at h
        split at h
        · exact ⟨_, h⟩
        · exact ⟨_, h⟩
      obtain ⟨work₁, hrest⟩ := hrest
      rcases List.mem_cons.mp hl with rfl | hmem
      · exact (grows_markTargets hrest).seen hmarks.seen
      · exact ih hrest hmem

/-! ## Changes leave a trace

Nothing that has changed may be forgotten. Relative to an earlier graph, a join point is the same,
or is marked, or stands on the work list with its new frame. -/

/-- Every join point of `g'` whose merged frame is not the one it had in `g` is marked, or its new
frame is among the paths still to follow. No mark is lost. -/
def Alerts (g g' : JoinGraph) (work : List (Nat × Frame)) : Prop :=
  ∀ l k, g'.join? l = some k →
    (∃ j, g.join? l = some j ∧ k.merged = j.merged ∧ (j.isPending = true → k.isPending = true))
      ∨ k.isPending = true
      ∨ ∃ m, k.merged = some m ∧ (k.position + 1, m) ∈ work

namespace Alerts

theorem refl (g : JoinGraph) (work : List (Nat × Frame)) : Alerts g g work :=
  fun _ k hk => Or.inl ⟨k, hk, rfl, fun h => h⟩

/-- The traces of changes are still there on a longer work list. -/
theorem mono {work work' : List (Nat × Frame)} (h : Alerts g g' work)
    (hsub : ∀ x ∈ work, x ∈ work') : Alerts g g' work' := by
  intro l k hk
  rcases h l k hk with hsame | hpend | ⟨m, hm, hmem⟩
  · exact Or.inl hsame
  · exact Or.inr (Or.inl hpend)
  · exact Or.inr (Or.inr ⟨m, hm, hsub _ hmem⟩)

/-- Traces of the first part of a change last through the second. -/
theorem trans {work : List (Nat × Frame)} (h : Alerts g g₁ work) (hgrow : g₁.Grows g')
    (h' : Alerts g₁ g' work) : Alerts g g' work := by
  intro l k hk
  rcases h' l k hk with ⟨k₁, hk₁, hsame₁, hkeep₁⟩ | hpend | hwork
  · rcases h l k₁ hk₁ with ⟨j, hj, hsame, hkeep⟩ | hpend | ⟨m, hm, hmem⟩
    · exact Or.inl ⟨j, hj, hsame₁.trans hsame, fun hp => hkeep₁ (hkeep hp)⟩
    · exact Or.inr (Or.inl (hkeep₁ hpend))
    · -- the trace was left in the first part, and what it stands for has not moved in the second
      obtain ⟨j', hj', hgrows⟩ := hgrow.join_of_later hk
      rw [hk₁] at hj'
      cases hj'
      refine Or.inr (Or.inr ⟨m, hsame₁.trans hm, ?_⟩)
      rw [hgrows.position]
      exact hmem
  · exact Or.inr (Or.inl hpend)
  · exact Or.inr (Or.inr hwork)

/-- A join point that was replaced answers for itself, and all others are as they were. -/
theorem setJoin {work : List (Nat × Frame)} (hj : g.join? l = some j) (hk : j.Grows k)
    (hself : (k.merged = j.merged ∧ (j.isPending = true → k.isPending = true))
      ∨ k.isPending = true) : Alerts g (g.setJoin k) work := by
  intro l' i hi
  rw [join?_setJoin hj hk.label] at hi
  by_cases hl : l' = l
  · rw [if_pos hl] at hi
    cases hi
    rcases hself with ⟨hsame, hkeep⟩ | hpend
    · exact Or.inl ⟨j, hl ▸ hj, hsame, hkeep⟩
    · exact Or.inr (Or.inl hpend)
  · rw [if_neg hl] at hi
    exact Or.inl ⟨i, hi, rfl, fun h => h⟩

end Alerts

/-- All handlers that change when they are fed are marked. -/
theorem alerts_feed (h : g.feed oracle p f = .ok g') : Alerts g g' [] := by
  refine feed_induction (motive := fun g₁ => Alerts g g₁ []) ?_ h (Alerts.refl g [])
  intro g₁ l j k s _ hg hj hs hk
  refine hg.trans (.setJoin hj hk.grows_alerted) (Alerts.setJoin hj hk.grows_alerted ?_)
  by_cases hsame : k.merged = j.merged
  · refine Or.inl ⟨by rw [JoinPoint.alerted_merged, hsame], fun hp => ?_⟩
    exact hk.isPending_alerted hs (Or.inr hp)
  · exact Or.inr (hk.isPending_alerted hs (Or.inl hsame))

/-- A label that has to be followed has a merged frame. What holds of the frame that arrived holds
of the merged one, if merging keeps it from either side: the merged frame comes from it by
merges. -/
theorem Marks.exists_merged {P : Frame → Prop} (h : Marks oracle f l g g' true)
    (hk : g'.join? l = some k) (hf : P f)
    (hmerge : ∀ a b m : Frame, a.merge oracle b = .ok m → P a ∨ P b → P m) :
    ∃ m, k.merged = some m ∧ P m := by
  cases h with
  | changed j k₁ g' hj hk₁ _ hfeed =>
    have hself : (g.setJoin k₁).join? l = some k₁ := join?_setJoin_self hj hk₁.label
    -- feeding the handlers of the label may merge into the label itself, if it is one of them
    have hkeep := feed_induction
      (motive := fun g₂ => ∀ i, g₂.join? l = some i → ∃ m, i.merged = some m ∧ P m)
      (by
        intro g₂ l' j' i s _ hg₂ hj' _ hi i' hi'
        rw [join?_setJoin hj' hi.grows_alerted.label] at hi'
        by_cases hl : l = l'
        · subst hl
          rw [if_pos rfl] at hi'
          cases hi'
          obtain ⟨m, hm, hPm⟩ := hg₂ j' hj'
          rw [JoinPoint.alerted_merged]
          cases hi with
          | first _ hnone => rw [hnone] at hm; cases hm
          | joined current m' _ hcurrent hmerged =>
            rw [hcurrent] at hm
            cases hm
            exact ⟨m', rfl, hmerge _ _ _ hmerged (Or.inl hPm)⟩
        · rw [if_neg hl] at hi'
          exact hg₂ i' hi') hfeed
    refine hkeep ?_ k hk
    intro i hi
    rw [hself] at hi
    cases hi
    cases hk₁ with
    | first _ _ => exact ⟨f, rfl, hf⟩
    | joined current m _ _ hmerged => exact ⟨m, rfl, hmerge _ _ _ hmerged (Or.inr hf)⟩

/-- The merged frame of a label that has to be followed is the trace of the change. -/
theorem Marks.alerts_true (h : Marks oracle f l g g' true) (hk : g'.join? l = some k) :
    ∃ m, k.merged = some m ∧ Alerts g g' [(k.position + 1, m)] := by
  obtain ⟨m, hm, _⟩ := h.exists_merged (P := fun _ => True) hk trivial (fun _ _ _ _ _ => trivial)
  refine ⟨m, hm, ?_⟩
  cases h with
  | changed j k₁ g' hj hk₁ _ hfeed =>
    intro l' i hi
    rcases alerts_feed hfeed l' i hi with ⟨j', hj', hsame, hpend⟩ | hpend | ⟨_, _, hmem⟩
    · by_cases hl : l' = l
      · -- the label itself has changed, and its merged frame is the trace
        subst hl
        rw [hk] at hi
        cases hi
        exact Or.inr (Or.inr ⟨m, hm, List.mem_cons_self ..⟩)
      · rw [join?_setJoin_ne hj hk₁.label hl] at hj'
        exact Or.inl ⟨j', hj', hsame, hpend⟩
    · exact Or.inr (Or.inl hpend)
    · cases hmem

/-- A label that need not be followed has not changed. -/
theorem Marks.alerts_false (h : Marks oracle f l g g' false) : Alerts g g' [] := by
  cases h with
  | known _ _ _ => exact .refl g []
  | unchanged j k hj hk hsame =>
    refine Alerts.setJoin hj hk.grows (Or.inl ⟨hsame, fun hp => ?_⟩)
    rw [JoinPoint.isPending, hk.handler]
    exact hp

/-- The paths added for the targets of a branch come before those there were, and are the traces of
all changes. -/
theorem alerts_markTargets {labels : List Label} {work work' : List (Nat × Frame)}
    (h : markTargets oracle f labels g work = .ok (g', work')) :
    (∀ x ∈ work, x ∈ work') ∧ Alerts g g' work' := by
  refine markTargets_induction (motive := fun g₁ w => (∀ x ∈ work, x ∈ w) ∧ Alerts g g₁ w)
    ?_ ?_ h ⟨fun _ hx => hx, .refl g work⟩
  · intro g₁ g₂ w l _ ⟨hsub, hg⟩ hmarks
    exact ⟨hsub, hg.trans hmarks.grows (hmarks.alerts_false.mono (by simp))⟩
  · intro g₁ g₂ w l k _ ⟨hsub, hg⟩ hmarks hk
    -- the path that is put in front is the trace of this change
    obtain ⟨m, hm, halerts⟩ := hmarks.alerts_true hk
    refine ⟨fun x hx => List.mem_cons_of_mem _ (hsub x hx), ?_⟩
    rw [hm, Option.getD_some]
    refine (hg.mono (fun x hx => List.mem_cons_of_mem _ hx)).trans hmarks.grows
      (halerts.mono (fun x hx => ?_))
    rw [List.mem_singleton] at hx
    rw [hx]
    exact List.mem_cons_self ..

/-! ## Marked handlers have a frame

A mark says that the merged frame of a handler has changed. So there is one to go on with when the
handler is taken up. -/

/-- A handler is marked only after a frame has arrived. -/
def Marked (g : JoinGraph) : Prop :=
  ∀ l j, g.join? l = some j → j.isPending = true → j.merged.isSome = true

namespace Marked

theorem setJoin (h : g.Marked) (hj : g.join? l = some j) (hlabel : k.label = j.label)
    (hself : k.isPending = true → k.merged.isSome = true) : (g.setJoin k).Marked := by
  intro l' i hi hpending
  rw [join?_setJoin hj hlabel] at hi
  by_cases hl : l' = l
  · rw [if_pos hl] at hi
    cases hi
    exact hself hpending
  · rw [if_neg hl] at hi
    exact h l' i hi hpending

/-- Handlers that are fed are marked only with a frame. -/
theorem feed (h : g.Marked) (hfeed : g.feed oracle p f = .ok g') : g'.Marked := by
  refine feed_induction (motive := Marked) ?_ hfeed h
  intro g₁ l j k s _ hg₁ hj _ hk
  refine hg₁.setJoin hj hk.grows_alerted.label fun _ => ?_
  rw [JoinPoint.alerted_merged]
  exact hk.isSome_merged

/-- A frame that arrives at a label marks handlers only with a frame. -/
theorem marks {changed : Bool} (h : g.Marked) (hmarks : Marks oracle f l g g' changed) :
    g'.Marked := by
  cases hmarks with
  | known _ _ _ => exact h
  | unchanged j k hj hk _ => exact h.setJoin hj hk.label fun _ => hk.isSome_merged
  | changed j k g' hj hk _ hfeed =>
    exact (h.setJoin hj hk.label fun _ => hk.isSome_merged).feed hfeed

theorem markTargets {labels : List Label} {work work' : List (Nat × Frame)} (h : g.Marked)
    (hmark : JoinGraph.markTargets oracle f labels g work = .ok (g', work')) : g'.Marked :=
  markTargets_induction (motive := fun g₁ _ => g₁.Marked)
    (fun _ _ _ _ _ hg₁ hmarks => hg₁.marks hmarks)
    (fun _ _ _ _ _ _ hg₁ hmarks _ => hg₁.marks hmarks) hmark h

end Marked

end JoinGraph

end JvmFrames
