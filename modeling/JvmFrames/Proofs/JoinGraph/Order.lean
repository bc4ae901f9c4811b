import JvmFrames.Proofs.JoinGraph.CatchTypes
import JvmFrames.Proofs.JoinGraph.Refusal

/-!
# The order of arrivals does not matter

Calls that bring the same frames to the same labels, in any order, leave the same snapshot at every
join point, and either all of these orders succeed or none does (`JoinGraph.serve_perm`). This is so
for calls that go straight to where they are meant (`Call.Plain`): those that feed handlers, and
those that mark a label nothing protects. What such calls have brought to a join point is just a set
of snapshots (`seen_serve_iff`), and that set decides what is merged there.

A handler that was never marked has what is caught on its stack, and its locals are merged slot by
slot (`slotMerge`). Handlers refuse nothing they are fed unless a frame with another stack than one
word was marked at one of them. What is caught does not depend on the order of the exception table
either (`catchType?_build_perm`).
-/

namespace JvmFrames

namespace JoinGraph

variable {oracle : Oracle} {g g' g₁ g₂ : JoinGraph} {l : Label} {f : Frame} {c : Call}
variable {calls calls' : List Call} {j k : JoinPoint} {s : Snapshot VType} {labels : List Label}

/-- A call brings a frame to a label. -/
def Call.Brings (g : JoinGraph) (l : Label) (f : Frame) : Call → Prop
  | mark l' f' => l' = l ∧ f = f'
  | feed p f' => l ∈ g.protectors p ∧ ∃ t, g.catchType? l = some t ∧ f = f'.caught t

/-- A call that feeds handlers, or marks a join point that nothing protects. -/
def Call.Plain (g : JoinGraph) : Call → Prop
  | mark l _ => ∃ j, g.join? l = some j ∧ g.protectors j.position = []
  | feed _ _ => True

/-- What a call brings to a label does not depend on what has arrived before. -/
theorem Call.brings_iff (hgrow : g.Grows g') : c.Brings g' l f ↔ c.Brings g l f := by
  cases c with
  | mark l' f' => exact Iff.rfl
  | feed p f' => rw [Brings, Brings, hgrow.protectors_eq, hgrow.catchType?_eq]

/-- A plain call stays plain while other calls are answered. -/
theorem Call.Plain.grows (hplain : c.Plain g) (hgrow : g.Grows g') : c.Plain g' := by
  cases c with
  | mark l f =>
    obtain ⟨j, hj, hnone⟩ := hplain
    obtain ⟨k, hk, hgrows⟩ := hgrow.join l j hj
    exact ⟨k, hk, by rw [hgrow.protectors_eq, hgrows.position, hnone]⟩
  | feed p f => trivial

/-! ## What has been seen

Each call adds to the snapshots of a label those of the frames it brings there and no others. For
calls one after the other this is a union, in which order has no part. -/

/-- One join point has received a frame, and all others have seen what they had. -/
theorem seen_setJoin_iff {l' : Label} {i : JoinPoint} (hj : g.join? l = some j)
    (hi : g.join? l' = some i) (hlabel : k.label = i.label) {k' : JoinPoint}
    (hk' : (g.setJoin k).join? l = some k') (hseen : k.seen = f.snapshot :: i.seen) :
    s ∈ k'.seen ↔ s ∈ j.seen ∨ (l' = l ∧ s = f.snapshot) := by
  rw [join?_setJoin hi hlabel] at hk'
  -- the label itself has one snapshot more, any other has what it had
  by_cases hl : l = l'
  · subst hl
    rw [if_pos rfl] at hk'
    cases hk'
    rw [hj] at hi
    cases hi
    rw [hseen, List.mem_cons]
    constructor
    · rintro (heq | hmem)
      · exact Or.inr ⟨rfl, heq⟩
      · exact Or.inl hmem
    · rintro (hmem | ⟨_, heq⟩)
      · exact Or.inr hmem
      · exact Or.inl heq
  · rw [if_neg hl, hj] at hk'
    cases hk'
    constructor
    · exact Or.inl
    · rintro (hmem | ⟨heq, _⟩)
      · exact hmem
      · exact absurd heq.symm hl

/-- Feeding a handler adds the snapshot of what it catches from the frame. -/
theorem Feeds.seen_iff {l' : Label} (h : Feeds oracle f l' g g') (hj : g.join? l = some j)
    (hk : g'.join? l = some k) :
    s ∈ k.seen ↔ s ∈ j.seen ∨ ∃ t, l' = l ∧ g.catchType? l = some t ∧ s = (f.caught t).snapshot := by
  cases h with
  | idle hnone =>
    -- where nothing is caught, nothing arrives
    rw [hj] at hk
    cases hk
    constructor
    · exact Or.inl
    · rintro (hmem | ⟨t, rfl, ht, _⟩)
      · exact hmem
      · rw [hnone] at ht
        cases ht
  | known i st hi hst hseen =>
    -- what arrives has been seen already
    rw [hj] at hk
    cases hk
    constructor
    · exact Or.inl
    · rintro (hmem | ⟨t, rfl, ht, rfl⟩)
      · exact hmem
      · rw [hj] at hi
        cases hi
        rw [catchType?_of_join? hj, hst] at ht
        cases ht
        exact hseen
  | received i k' st hi hst hk' =>
    have hset := seen_setJoin_iff (s := s) hj hi hk'.grows_alerted.label hk
      (by rw [JoinPoint.alerted_seen, hk'.seen])
    rw [hset]
    constructor
    · rintro (hmem | ⟨rfl, heq⟩)
      · exact Or.inl hmem
      · exact Or.inr ⟨st.catchType, rfl, by rw [catchType?_of_join? hi, hst]; rfl, heq⟩
    · rintro (hmem | ⟨t, rfl, ht, heq⟩)
      · exact Or.inl hmem
      · rw [catchType?_of_join? hi, hst] at ht
        cases ht
        exact Or.inr ⟨rfl, heq⟩

/-- Feeding some handlers adds one snapshot to each of them, at most. -/
theorem seen_feedHandlers_iff (h : feedHandlers oracle f labels g = .ok g')
    (hj : g.join? l = some j) (hk : g'.join? l = some k) :
    s ∈ k.seen ↔ s ∈ j.seen
      ∨ (l ∈ labels ∧ ∃ t, g.catchType? l = some t ∧ s = (f.caught t).snapshot) := by
  induction labels generalizing g j with
  | nil =>
    cases h
    rw [hj] at hk
    cases hk
    simp
  | cons l' rest ih =>
    rw [feedHandlers] at h
    cases hfirst : g.feedHandler oracle f l' with
    | error fault => rw [hfirst] at h; cases h
    | ok g₁ =>
      rw [hfirst] at h
      have hfeeds := feeds_of_feedHandler hfirst
      -- the same join point between the first handler and the rest
      obtain ⟨j₁, hj₁, _⟩ := hfeeds.grows.join l j hj
      rw [ih h hj₁, hfeeds.seen_iff hj hj₁, hfeeds.grows.catchType?_eq, List.mem_cons]
      constructor
      · rintro ((hmem | ⟨t, rfl, ht⟩) | ⟨hrest, ht⟩)
        · exact Or.inl hmem
        · exact Or.inr ⟨Or.inl rfl, t, ht⟩
        · exact Or.inr ⟨Or.inr hrest, ht⟩
      · rintro (hmem | ⟨rfl | hrest, ht⟩)
        · exact Or.inl (Or.inl hmem)
        · obtain ⟨t, ht⟩ := ht
          exact Or.inl (Or.inr ⟨t, rfl, ht⟩)
        · exact Or.inr ⟨hrest, ht⟩

/-- A label that nothing protects is all that marking it touches. -/
theorem Marks.seen_iff {l' : Label} {changed : Bool} (h : Marks oracle f l' g g' changed)
    (hplain : (Call.mark l' f).Plain g) (hj : g.join? l = some j) (hk : g'.join? l = some k) :
    s ∈ k.seen ↔ s ∈ j.seen ∨ (l' = l ∧ s = f.snapshot) := by
  cases h with
  | known i hi hseen =>
    rw [hj] at hk
    cases hk
    constructor
    · exact Or.inl
    · rintro (hmem | ⟨rfl, rfl⟩)
      · exact hmem
      · rw [hj] at hi
        cases hi
        exact hseen
  | unchanged i k' hi hk' _ => exact seen_setJoin_iff hj hi hk'.label hk hk'.seen
  | changed i k' g' hi hk' _ hfeed =>
    -- no handler is fed
    obtain ⟨i', hi', hnone⟩ := hplain
    rw [hi] at hi'
    cases hi'
    have hprotectors : (g.setJoin k').protectors i.position = [] := hnone
    rw [feed, hprotectors] at hfeed
    cases hfeed
    exact seen_setJoin_iff hj hi hk'.label hk hk'.seen

/-- A plain call adds the snapshots of the frames it brings. -/
theorem seen_answer_iff (hplain : c.Plain g) (h : c.answer oracle g = .ok g')
    (hj : g.join? l = some j) (hk : g'.join? l = some k) :
    s ∈ k.seen ↔ s ∈ j.seen ∨ ∃ f, c.Brings g l f ∧ s = f.snapshot := by
  cases c with
  | mark l' f =>
    -- no handler protects the label, so a mark reaches nothing but the label
    obtain ⟨changed, hmarks⟩ := marks_of_answer h
    rw [hmarks.seen_iff hplain hj hk]
    constructor
    · rintro (hmem | ⟨rfl, heq⟩)
      · exact Or.inl hmem
      · exact Or.inr ⟨f, ⟨rfl, rfl⟩, heq⟩
    · rintro (hmem | ⟨_, ⟨rfl, rfl⟩, heq⟩)
      · exact Or.inl hmem
      · exact Or.inr ⟨rfl, heq⟩
  | feed p f =>
    rw [seen_feedHandlers_iff h hj hk]
    constructor
    · rintro (hmem | ⟨hl, t, ht, heq⟩)
      · exact Or.inl hmem
      · exact Or.inr ⟨f.caught t, ⟨hl, t, ht, rfl⟩, heq⟩
    · rintro (hmem | ⟨_, ⟨hl, t, ht, rfl⟩, heq⟩)
      · exact Or.inl hmem
      · exact Or.inr ⟨hl, t, ht, heq⟩

/-- Plain calls add to the snapshots of a label those of the frames they bring there. -/
theorem seen_serve_iff (hplain : ∀ c ∈ calls, c.Plain g) (h : serve oracle calls g = .ok g')
    (hj : g.join? l = some j) (hk : g'.join? l = some k) :
    s ∈ k.seen ↔ s ∈ j.seen ∨ ∃ c ∈ calls, ∃ f, c.Brings g l f ∧ s = f.snapshot := by
  induction calls generalizing g j with
  | nil =>
    cases h
    rw [hj] at hk
    cases hk
    simp
  | cons c rest ih =>
    obtain ⟨g₁, hc, hrest⟩ := serve_cons h
    have hgrow := Call.grows hc
    obtain ⟨j₁, hj₁, _⟩ := hgrow.join l j hj
    -- a plain call does not change guards, so the rest is still plain
    have hplain₁ : ∀ c' ∈ rest, c'.Plain g₁ := fun c' hc' =>
      (hplain c' (List.mem_cons_of_mem _ hc')).grows hgrow
    rw [ih hplain₁ hrest hj₁, seen_answer_iff (hplain c (List.mem_cons_self ..)) hc hj hj₁, or_assoc]
    simp only [Call.brings_iff hgrow, List.mem_cons, exists_eq_or_imp]

/-! ## Bounds are enough for success

Two frames that may be assigned to a third one always merge. So no call is refused as long as
everything seen at a label, and everything brought there, has one common bound. -/

/-- Everything seen at a label may be assigned to a frame given for it. -/
def Under (oracle : Oracle) (bound : Label → Frame) (g : JoinGraph) : Prop :=
  ∀ l f, g.Seen l f → f.Assignable oracle (bound l)

variable {bound : Label → Frame}

/-- Merged frames are least upper bounds as long as frames without allocations arrive. -/
theorem carries_supremum (hlaw : Oracle.Lawful oracle) (graph : JoinGraph) :
    graph.Carries oracle (·.Holds VType.Settled) (fun _ f => f.Holds VType.Settled)
      (fun _ j => j.Supremum oracle) where
  caught := fun l f t hf _ => ⟨hf.1, fun v hv => by rw [List.mem_singleton.mp hv]; nofun⟩
  receive := fun l j k f hj hf hk => hj.receives hlaw hf hk
  pending := fun l j b hj => ⟨hj.settled, hj.reached, hj.bounds, hj.least⟩

/-- A frame within the bound of a label is not refused there. -/
theorem not_refusal {fault : Fault Error JoinGraph} (hlaw : Oracle.Lawful oracle)
    (hall : g.All fun _ j => j.Supremum oracle) (hunder : g.Under oracle bound)
    (hf : f.Assignable oracle (bound l)) : ¬ Refusal oracle f l g fault := by
  rintro ⟨j, current, cause, seen, hj, hcurrent, hmerge⟩
  obtain ⟨m, hm⟩ := (hall l j hj).exists_merge hlaw hcurrent
    (fun f' hf' => hunder l f' ⟨j, hj, hf'⟩) hf
  rw [hmerge] at hm
  cases hm

/-- Handlers that are fed frames within their bounds stay within them. -/
theorem Under.feedHandlers (hunder : g.Under oracle bound)
    (hbound : ∀ l ∈ labels, ∀ t, g.catchType? l = some t → (f.caught t).Assignable oracle (bound l))
    (hlaw : Oracle.Lawful oracle) (h : JoinGraph.feedHandlers oracle f labels g = .ok g') :
    g'.Under oracle bound := by
  rintro l f' ⟨k, hk, hmem⟩
  obtain ⟨j, hj, _⟩ := (grows_feedHandlers h).join_of_later hk
  rcases (seen_feedHandlers_iff h hj hk).mp hmem with hold | ⟨hl, t, ht, heq⟩
  · exact hunder l f' ⟨j, hj, hold⟩
  · exact Frame.Assignable.trans hlaw (.of_snapshot_eq heq) (hbound l hl t ht)

/-- A plain call that brings frames within the bounds succeeds. -/
theorem exists_answer (hlaw : Oracle.Lawful oracle) (hall : g.All fun _ j => j.Supremum oracle)
    (hunder : g.Under oracle bound) (hplain : c.Plain g) (hf : c.frame.Holds VType.Settled)
    (hbound : ∀ l f, c.Brings g l f → f.Assignable oracle (bound l)) :
    ∃ g', c.answer oracle g = .ok g' := by
  cases hc : c.answer oracle g with
  | ok g' => exact ⟨g', rfl⟩
  | error fault =>
    exfalso
    cases c with
    | mark l f =>
      obtain ⟨j, hj, hnone⟩ := hplain
      have hmark : g.mark oracle l f = .error fault := by
        rw [Call.answer] at hc
        cases hmark : g.mark oracle l f with
        | ok result => rw [hmark] at hc; cases hc
        | error fault' => rw [hmark] at hc; cases hc; rfl
      rcases cases_of_mark_error hmark with ⟨hjoin, _⟩ | hrefusal | ⟨j', k, hj', hk, _, hfeed⟩
      · rw [isJoin_of_join? hj] at hjoin
        cases hjoin
      · exact not_refusal hlaw hall hunder (hbound l f ⟨rfl, rfl⟩) hrefusal
      · rw [hj] at hj'
        cases hj'
        have hprotectors : (g.setJoin k).protectors j.position = [] := hnone
        rw [feed, hprotectors] at hfeed
        cases hfeed
    | feed p f =>
      obtain ⟨accepted, refusing, ⟨after, hlabels⟩, g₁, t, hfed, ht, hrefusal⟩ :=
        interrupted_of_feedHandlers hc
      -- up to the refusal all is as it was, so there is no refusal
      have hbelow : ∀ l ∈ g.protectors p, ∀ t, g.catchType? l = some t →
          (f.caught t).Assignable oracle (bound l) := fun l hl t ht =>
        hbound l (f.caught t) ⟨hl, t, ht, rfl⟩
      have hmem : ∀ l ∈ accepted, l ∈ g.protectors p := fun l hl => by
        rw [hlabels]
        exact List.mem_append_left _ hl
      have hrefusing : refusing ∈ g.protectors p := by
        rw [hlabels]
        exact List.mem_append_right _ (List.mem_cons_self ..)
      refine not_refusal hlaw ?_ (hunder.feedHandlers (fun l hl => hbelow l (hmem l hl)) hlaw hfed)
        (hbelow refusing hrefusing t ht) hrefusal
      exact (carries_supremum hlaw g).feedHandlers (.refl g) hall hf hfed

/-- Plain calls succeed where all they bring to a label, and all that is there, has a bound. -/
theorem exists_serve (bound : Label → Frame) (hlaw : Oracle.Lawful oracle)
    (hall : g.All fun _ j => j.Supremum oracle) (hunder : g.Under oracle bound)
    (hplain : ∀ c ∈ calls, c.Plain g) (hf : ∀ c ∈ calls, c.frame.Holds VType.Settled)
    (hbound : ∀ c ∈ calls, ∀ l f, c.Brings g l f → f.Assignable oracle (bound l)) :
    ∃ g', serve oracle calls g = .ok g' := by
  induction calls generalizing g with
  | nil => exact ⟨g, rfl⟩
  | cons c rest ih =>
    have hmem : c ∈ c :: rest := List.mem_cons_self ..
    -- the first call succeeds, and what it leaves is under the bounds again
    obtain ⟨g₁, hc⟩ := exists_answer hlaw hall hunder (hplain c hmem) (hf c hmem) (hbound c hmem)
    have hgrow := Call.grows hc
    have hall₁ := (carries_supremum hlaw g).answer (.refl g) hall (hf c hmem)
      (fun l f heq => by subst heq; exact hf _ hmem) hc
    have hunder₁ : g₁.Under oracle bound := by
      rintro l f ⟨k, hk, hseen⟩
      obtain ⟨j, hj, _⟩ := hgrow.join_of_later hk
      rcases (seen_answer_iff (hplain c hmem) hc hj hk).mp hseen with hold | ⟨f', hbrings, heq⟩
      · exact hunder l f ⟨j, hj, hold⟩
      · exact Frame.Assignable.trans hlaw (.of_snapshot_eq heq) (hbound c hmem l f' hbrings)
    obtain ⟨g', hrest⟩ := ih hall₁ hunder₁
      (fun c' hc' => (hplain c' (List.mem_cons_of_mem _ hc')).grows hgrow)
      (fun c' hc' => hf c' (List.mem_cons_of_mem _ hc'))
      (fun c' hc' l f hbrings => hbound c' (List.mem_cons_of_mem _ hc') l f
        ((Call.brings_iff hgrow).mp hbrings))
    refine ⟨g', ?_⟩
    rw [serve, hc]
    exact hrest

/-! ## Other orders

If calls succeed in one order, the merged frames in the end are bounds for everything that is
brought. With these bounds the calls succeed in any other order. -/

/-- Where merged frames are bounds, they bound everything seen. -/
theorem under_frameAt? (hall : g.All fun _ j => j.Supremum oracle) :
    g.Under oracle fun l => (g.frameAt? l).getD .empty := by
  rintro l f ⟨k, hk, hmem⟩
  obtain ⟨m, hm, hbelow⟩ := (hall l k hk).bounds f hmem
  show f.Assignable oracle ((g.frameAt? l).getD .empty)
  rw [frameAt?_of_join? hk, hm]
  exact hbelow

theorem Call.isJoin_of_brings (hplain : c.Plain g) (hbrings : c.Brings g l f) :
    g.isJoin l = true := by
  cases c with
  | mark l' f' =>
    obtain ⟨rfl, _⟩ := hbrings
    obtain ⟨j, hj, _⟩ := hplain
    exact isJoin_of_join? hj
  | feed p f' =>
    obtain ⟨_, t, ht, _⟩ := hbrings
    obtain ⟨j, hj, _⟩ := Option.bind_eq_some_iff.mp ht
    exact isJoin_of_join? hj

theorem seen_of_brings (hplain : ∀ c ∈ calls, c.Plain g) (h : serve oracle calls g = .ok g')
    (hc : c ∈ calls) (hbrings : c.Brings g l f) : g'.Seen l f := by
  obtain ⟨j, hj⟩ := exists_join?_of_isJoin (Call.isJoin_of_brings (hplain c hc) hbrings)
  obtain ⟨k, hk, _⟩ := (grows_serve h).join l j hj
  exact ⟨k, hk, (seen_serve_iff hplain h hj hk).mpr (Or.inr ⟨c, hc, f, hbrings, rfl⟩)⟩

/-- Merged frames stay least upper bounds while calls are answered. -/
theorem supremum_serve (hlaw : Oracle.Lawful oracle) (hall : g.All fun _ j => j.Supremum oracle)
    (hf : ∀ c ∈ calls, c.frame.Holds VType.Settled) (h : serve oracle calls g = .ok g') :
    g'.All fun _ j => j.Supremum oracle :=
  (carries_supremum hlaw g).serve (.refl g) hall hf (fun _ _ hmark => hf _ hmark) h

theorem frameAt?_eq_none (h : g.isJoin l = false) : g.frameAt? l = none := by
  have hnone : g.join? l = none := by simpa [isJoin] using h
  rw [frameAt?, hnone, Option.bind_none]

/-- The same plain calls in two orders that both succeed leave the same snapshots. -/
theorem snapshot_eq_of_perm (hlaw : Oracle.Lawful oracle) (hanti : Oracle.Antisymm oracle)
    (hall : g.All fun _ j => j.Supremum oracle) (hplain : ∀ c ∈ calls, c.Plain g)
    (hf : ∀ c ∈ calls, c.frame.Holds VType.Settled) (hperm : calls.Perm calls')
    (h₁ : serve oracle calls g = .ok g₁) (h₂ : serve oracle calls' g = .ok g₂) (l : Label) :
    (g₂.frameAt? l).map Frame.snapshot = (g₁.frameAt? l).map Frame.snapshot := by
  have hall₁ := supremum_serve hlaw hall hf h₁
  have hall₂ := supremum_serve hlaw hall (fun c hc => hf c (hperm.mem_iff.mpr hc)) h₂
  cases hjoin : g.isJoin l with
  | false =>
    rw [frameAt?_eq_none (((grows_serve h₁).isJoin l).trans hjoin),
      frameAt?_eq_none (((grows_serve h₂).isJoin l).trans hjoin)]
  | true =>
    obtain ⟨j, hj⟩ := exists_join?_of_isJoin hjoin
    obtain ⟨k₁, hk₁, _⟩ := (grows_serve h₁).join l j hj
    obtain ⟨k₂, hk₂, _⟩ := (grows_serve h₂).join l j hj
    rw [frameAt?_of_join? hk₁, frameAt?_of_join? hk₂]
    -- both merged frames are suprema of what was seen, and both have seen the same
    refine (hall₂ l k₂ hk₂).snapshot_eq hanti (hall₁ l k₁ hk₁) fun s => ?_
    rw [seen_serve_iff hplain h₁ hj hk₁,
      seen_serve_iff (fun c hc => hplain c (hperm.mem_iff.mpr hc)) h₂ hj hk₂]
    simp only [hperm.mem_iff]

/-- If plain calls succeed in one order they succeed in every other, and every join point ends up
with the same snapshot. -/
theorem serve_perm (hlaw : Oracle.Lawful oracle) (hanti : Oracle.Antisymm oracle)
    (hall : g.All fun _ j => j.Supremum oracle) (hplain : ∀ c ∈ calls, c.Plain g)
    (hf : ∀ c ∈ calls, c.frame.Holds VType.Settled) (hperm : calls.Perm calls')
    (h : serve oracle calls g = .ok g₁) :
    ∃ g₂, serve oracle calls' g = .ok g₂
      ∧ ∀ l, (g₂.frameAt? l).map Frame.snapshot = (g₁.frameAt? l).map Frame.snapshot := by
  -- what the first order has merged bounds everything the other order brings
  have hunder := under_frameAt? (supremum_serve hlaw hall hf h)
  have hsucceeds : ∃ g₂, serve oracle calls' g = .ok g₂ :=
    exists_serve _ hlaw hall (fun l f hseen => hunder l f ((grows_serve h).seen hseen))
      (fun c hc => hplain c (hperm.mem_iff.mpr hc)) (fun c hc => hf c (hperm.mem_iff.mpr hc))
      fun c hc l f hbrings => hunder l f (seen_of_brings hplain h (hperm.mem_iff.mpr hc) hbrings)
  obtain ⟨g₂, h₂⟩ := hsucceeds
  exact ⟨g₂, h₂, snapshot_eq_of_perm hlaw hanti hall hplain hf hperm h h₂⟩

/-! ## Handlers that are only fed

What comes into a handler has one value on its stack, which is what the handler catches. All of
these merge, and the locals are merged slot by slot. -/

/-- What the stacks of frames that arrive have in common, those of all frames seen have. -/
theorem carries_stacks (graph : JoinGraph) (oracle : Oracle) {S : Label → List VType → Prop}
    (hcaught : ∀ l t, graph.catchType? l = some t → S l [.object t]) :
    graph.Carries oracle (fun _ => True) (fun l f => S l f.stack)
      (fun l j => ∀ f : Frame, f.snapshot ∈ j.seen → S l f.stack) where
  caught := fun l _ t _ ht => hcaught l t ht
  receive := fun l j k f hj hf hk f' hmem => by
    rw [hk.seen] at hmem
    rcases List.mem_cons.mp hmem with heq | hold
    · rw [(Frame.snapshot_eq_iff.mp heq).1]
      exact hf
    · exact hj f' hold
  pending := fun _ _ _ hj => hj

/-- A frame with one narrow value on its stack is below the frame with one unusable word. -/
theorem assignable_single {v : VType} (h : f.stack = [v]) (hv : width v = 1) :
    f.Assignable oracle ⟨.empty, [.top]⟩ where
  stack := by
    rw [h]
    exact .cons ⟨hv, .top v⟩ .nil
  locals := fun n w hw => by cases hw.1

theorem plain_feeds (g : JoinGraph) (fed : List (Nat × Frame)) :
    ∀ c ∈ fed.map fun x => Call.feed x.1 x.2, c.Plain g :=
  List.forall_mem_map.mpr fun _ _ => trivial

/-- Handlers that have seen only stacks of one word can be fed anything. -/
theorem exists_serve_feeds (hlaw : Oracle.Lawful oracle) (hall : g.All fun _ j => j.Supremum oracle)
    {fed : List (Nat × Frame)} (hf : ∀ x ∈ fed, x.2.Holds VType.Settled)
    (hsingle : ∀ x ∈ fed, ∀ l ∈ g.protectors x.1, ∀ f, g.Seen l f →
      ∃ v, f.stack = [v] ∧ width v = 1) :
    ∃ g', serve oracle (fed.map fun x => .feed x.1 x.2) g = .ok g' := by
  -- the handlers that are fed are bounded by one unusable word, and all else by what it has
  let bound : Label → Frame := fun l =>
    if ∃ x ∈ fed, l ∈ g.protectors x.1 then ⟨.empty, [.top]⟩ else (g.frameAt? l).getD .empty
  refine exists_serve bound hlaw hall ?_ (plain_feeds g fed) (List.forall_mem_map.mpr hf) ?_
  · intro l f hseen
    simp only [bound]
    split
    · next hfed =>
      obtain ⟨x, hx, hl⟩ := hfed
      obtain ⟨v, hstack, hv⟩ := hsingle x hx l hl f hseen
      exact assignable_single hstack hv
    · exact under_frameAt? hall l f hseen
  · refine List.forall_mem_map.mpr fun x hx l f hbrings => ?_
    obtain ⟨hl, t, ht, rfl⟩ := hbrings
    have hfed : ∃ x ∈ fed, l ∈ g.protectors x.1 := ⟨x, hx, hl⟩
    simp only [bound, if_pos hfed]
    exact assignable_single (v := .object t) rfl rfl

/-- Feeding a handler adds to its snapshots what it makes of the frames. -/
theorem seen_feeds_iff {t : RefType} {fed : List (Nat × Frame)} (ht : g.catchType? l = some t)
    (hl : ∀ x ∈ fed, l ∈ g.protectors x.1)
    (h : serve oracle (fed.map fun x => .feed x.1 x.2) g = .ok g') (hj : g.join? l = some j)
    (hk : g'.join? l = some k) :
    s ∈ k.seen ↔ s ∈ j.seen ∨ ∃ x ∈ fed, s = (x.2.caught t).snapshot := by
  rw [seen_serve_iff (plain_feeds g fed) h hj hk]
  constructor
  · rintro (hold | ⟨c, hc, f, hbrings, heq⟩)
    · exact Or.inl hold
    · obtain ⟨x, hx, rfl⟩ := List.mem_map.mp hc
      -- the frame comes with the catch type of the handler, which is `t`
      obtain ⟨_, t', ht', rfl⟩ := hbrings
      rw [ht] at ht'
      cases ht'
      exact Or.inr ⟨x, hx, heq⟩
  · rintro (hold | ⟨x, hx, heq⟩)
    · exact Or.inl hold
    · exact Or.inr ⟨_, List.mem_map.mpr ⟨x, hx, rfl⟩, _, ⟨hl x hx, t, ht, rfl⟩, heq⟩

/-- What a handler has after it was fed: what is caught on the stack, and in the locals what it had
and what it was fed, slot by slot. -/
theorem frameAt?_of_feeds (hlaw : Oracle.Lawful oracle) (hanti : Oracle.Antisymm oracle)
    (hall : g.All fun _ j => j.Supremum oracle) {t : RefType} (ht : g.catchType? l = some t)
    (hentered : ∀ f, g.Seen l f → f.stack = [.object t]) {fed : List (Nat × Frame)} (hne : fed ≠ [])
    (hf : ∀ x ∈ fed, x.2.Holds VType.Settled) (hl : ∀ x ∈ fed, l ∈ g.protectors x.1)
    (h : serve oracle (fed.map fun x => .feed x.1 x.2) g = .ok g') :
    ∃ m, g'.frameAt? l = some m ∧ m.stack = [.object t]
      ∧ ∀ n, slotAt m.locals.toList n = slotMerge oracle n
          (((g.frameAt? l).toList ++ fed.map (·.2)).map (·.locals.toList)) := by
  obtain ⟨j, hj, _⟩ := Option.bind_eq_some_iff.mp ht
  obtain ⟨k, hk, hgrows⟩ := (grows_serve h).join l j hj
  have hseen : ∀ s, s ∈ k.seen ↔ s ∈ j.seen ∨ ∃ x ∈ fed, s = (x.2.caught t).snapshot := fun s =>
    seen_feeds_iff ht hl h hj hk
  have hsup := supremum_serve hlaw hall (List.forall_mem_map.mpr hf) h l k hk
  -- at least one frame was fed, so there is a merged one
  obtain ⟨x₀, hx₀⟩ := List.exists_mem_of_ne_nil fed hne
  obtain ⟨m, hm, _⟩ := hsup.bounds _ ((hseen _).mpr (Or.inr ⟨x₀, hx₀, rfl⟩))
  have hbelow : ∀ f : Frame, f.snapshot ∈ k.seen → f.Assignable oracle m := by
    intro f hmem
    obtain ⟨m', hm', hfm⟩ := hsup.bounds f hmem
    rw [hm] at hm'
    cases hm'
    exact hfm
  refine ⟨m, (frameAt?_of_join? hk).trans hm, hsup.stack_merged hanti hm fun f hmem => ?_,
    fun n => ?_⟩
  · rcases (hseen _).mp hmem with hold | ⟨x, _, heq⟩
    · exact hentered f ⟨j, hj, hold⟩
    · exact (Frame.snapshot_eq_iff.mp heq).1
  · have hslots := hsup.slotAt_merged (j.merged.toList ++ fed.map (·.2.caught t)) hlaw hanti hm
      ?_ ?_ ?_ ?_ n
    · -- what is caught replaces the stack and leaves the locals
      rw [hslots, frameAt?_of_join? hj, List.map_append, List.map_append, List.map_map, List.map_map]
      rfl
    · simp [hne]
    · intro x hx
      rcases List.mem_append.mp hx with hcurrent | hfed
      · exact (hall l j hj).settled x (Option.mem_toList.mp hcurrent)
      · obtain ⟨y, hy, rfl⟩ := List.mem_map.mp hfed
        exact (carries_supremum hlaw g).caught l y.2 t (hf y hy) ht
    · intro x hx
      rcases List.mem_append.mp hx with hcurrent | hfed
      · exact (hall l j hj).least x (Option.mem_toList.mp hcurrent) m fun f hmem =>
          hbelow f ((hseen _).mpr (Or.inl hmem))
      · obtain ⟨y, hy, rfl⟩ := List.mem_map.mp hfed
        exact hbelow _ ((hseen _).mpr (Or.inr ⟨y, hy, rfl⟩))
    · intro b hb f hmem
      rcases (hseen _).mp hmem with hold | ⟨x, hx, heq⟩
      · obtain ⟨current, hcurrent, hfc⟩ := (hall l j hj).bounds f hold
        exact hfc.trans hlaw (hb current
          (List.mem_append_left _ (Option.mem_toList.mpr hcurrent)))
      · exact Frame.Assignable.trans hlaw (.of_snapshot_eq heq)
          (hb _ (List.mem_append_right _ (List.mem_map.mpr ⟨x, hx, rfl⟩)))

/-- If feeds succeed in one order they do in every other, and leave a handler that has seen only
what it catches with the same snapshot. -/
theorem feeds_perm (hlaw : Oracle.Lawful oracle) (hanti : Oracle.Antisymm oracle)
    (hall : g.All fun _ j => j.Supremum oracle) {t : RefType} (ht : g.catchType? l = some t)
    (hentered : ∀ f, g.Seen l f → f.stack = [.object t]) {fed fed' : List (Nat × Frame)}
    (hne : fed ≠ []) (hf : ∀ x ∈ fed, x.2.Holds VType.Settled)
    (hl : ∀ x ∈ fed, l ∈ g.protectors x.1) (hperm : fed.Perm fed')
    (h : serve oracle (fed.map fun x => .feed x.1 x.2) g = .ok g₁) :
    ∃ g₂ m, serve oracle (fed'.map fun x => .feed x.1 x.2) g = .ok g₂
      ∧ g₂.frameAt? l = some m ∧ (g₁.frameAt? l).map Frame.snapshot = some m.snapshot
      ∧ m.stack = [.object t]
      ∧ ∀ n, slotAt m.locals.toList n = slotMerge oracle n
          (((g.frameAt? l).toList ++ fed.map (·.2)).map (·.locals.toList)) := by
  obtain ⟨m₁, hm₁, hstack, hslots⟩ := frameAt?_of_feeds hlaw hanti hall ht hentered hne hf hl h
  obtain ⟨g₂, h₂, hsame⟩ := serve_perm hlaw hanti hall (plain_feeds g fed)
    (List.forall_mem_map.mpr hf) (hperm.map _) h
  have hsnapshot := hsame l
  rw [hm₁] at hsnapshot
  obtain ⟨m, hm, heq⟩ := Option.map_eq_some_iff.mp hsnapshot
  -- snapshots decide stacks and usable words, which is all that is claimed of the frame
  obtain ⟨hstacks, husable⟩ := Frame.snapshot_eq_iff.mp heq
  refine ⟨g₂, m, h₂, hm, ?_, hstacks.trans hstack, fun n => ?_⟩
  · rw [hm₁, Option.map_some, heq]
  · rw [slotAt_eq_of_usableAt_iff (husable n), hslots]

/-! ## From a body on

A graph that was just built and has answered some calls has merged frames that are least upper
bounds, whatever these calls were. So the results above hold from there on. -/

/-- In a graph that has just been built nothing has arrived. -/
theorem supremum_of_build {code : Code} {ranges : List ProtectedRange}
    (h : build oracle code ranges = .ok g) : g.All fun _ j => j.Supremum oracle := fun l j hj =>
  .of_unreached ((built_of_build h).2 l j hj).1 ((built_of_build h).2 l j hj).2.1

/-- What the stacks of all frames marked at labels have in common, and what is caught there too, the
stacks of all frames seen there have. -/
theorem stack_of_seen {code : Code} {ranges : List ProtectedRange} {graph : JoinGraph}
    (hbuild : build oracle code ranges = .ok graph) {before : List Call}
    (hserve : serve oracle before graph = .ok g) {S : Label → List VType → Prop}
    (hcaught : ∀ l t, g.catchType? l = some t → S l [.object t])
    (hmarked : ∀ l f, .mark l f ∈ before → S l f.stack) (hseen : g.Seen l f) : S l f.stack := by
  have hgrow := grows_serve hserve
  have hfresh := (built_of_build hbuild).2.all_seen fun l _ f => S l f.stack
  have hcarried := (carries_stacks graph oracle fun l t ht =>
    hcaught l t ((hgrow.catchType?_eq l).trans ht)).serve (.refl graph) hfresh
      (fun _ _ => trivial) hmarked hserve
  obtain ⟨k, hk, hmem⟩ := hseen
  exact hcarried l k hk f hmem

/-- The order in which frames without allocations arrive does not matter, whatever frames of that
kind have arrived before. At a join point that nothing protects, one order of marks succeeds if
another one does, with the same snapshot. So do the feeds of a handler that was never marked, and it
has what is caught on the stack, and in the locals what arrived there, merged slot by slot. They
succeed if all that was marked at other handlers of the same positions has a stack of one word. What
a handler catches is the same for every order of the exception table. -/
theorem arrivals_commute {h : Hierarchy} (hwf : h.WellFormed) {code : Code}
    {ranges : List ProtectedRange} {graph : JoinGraph}
    (hbuild : build h.common code ranges = .ok graph) {before : List Call} {g : JoinGraph}
    (hbefore : ∀ c ∈ before, c.frame.Holds VType.Settled)
    (hserve : serve h.common before graph = .ok g) :
    (∀ l j, g.join? l = some j → g.protectors j.position = [] →
      ∀ frames frames' : List Frame, frames.Perm frames' →
        (∀ f ∈ frames, f.Holds VType.Settled) →
        ∀ g₁, serve h.common (frames.map (.mark l)) g = .ok g₁ →
          ∃ g₂, serve h.common (frames'.map (.mark l)) g = .ok g₂
            ∧ (g₂.frameAt? l).map Frame.snapshot = (g₁.frameAt? l).map Frame.snapshot)
    ∧ (∀ l t, g.catchType? l = some t → (∀ f, .mark l f ∉ before) →
      ∀ fed : List (Nat × Frame), fed ≠ [] → (∀ x ∈ fed, x.2.Holds VType.Settled) →
        (∀ x ∈ fed, l ∈ g.protectors x.1) →
        (∀ fed', fed.Perm fed' →
          ∀ g₁, serve h.common (fed.map fun x => .feed x.1 x.2) g = .ok g₁ →
            ∃ g₂ m, serve h.common (fed'.map fun x => .feed x.1 x.2) g = .ok g₂
              ∧ g₂.frameAt? l = some m ∧ (g₁.frameAt? l).map Frame.snapshot = some m.snapshot
              ∧ m.stack = [.object t]
              ∧ ∀ n, slotAt m.locals.toList n = slotMerge h.common n
                  (((g.frameAt? l).toList ++ fed.map (·.2)).map (·.locals.toList)))
        ∧ ((∀ x ∈ fed, ∀ l' ∈ g.protectors x.1, ∀ f, .mark l' f ∈ before →
              ∃ v, f.stack = [v] ∧ width v = 1) →
            ∃ g₁, serve h.common (fed.map fun x => .feed x.1 x.2) g = .ok g₁))
    ∧ ∀ ranges', ranges.Perm ranges' →
      ∃ graph', build h.common code ranges' = .ok graph'
        ∧ ∀ l, graph'.catchType? l = graph.catchType? l := by
  have hlaw := hwf.lawful
  have hanti := hwf.antisymm
  have hall := supremum_serve hlaw (supremum_of_build hbuild) hbefore hserve
  refine ⟨?_, ?_, fun ranges' hperm => catchType?_build_perm hlaw hanti hperm hbuild⟩
  · intro l j hj hnone frames frames' hperm hf g₁ h₁
    have hplain : ∀ c ∈ frames.map (Call.mark l), c.Plain g :=
      List.forall_mem_map.mpr fun _ _ => ⟨j, hj, hnone⟩
    obtain ⟨g₂, h₂, hsame⟩ := serve_perm hlaw hanti hall hplain (List.forall_mem_map.mpr hf)
      (hperm.map (Call.mark l)) h₁
    exact ⟨g₂, h₂, hsame l⟩
  · intro l t ht hnever fed hne hf hl
    -- nothing but what is caught has come to a handler that was never marked
    have hentered : ∀ f, g.Seen l f → f.stack = [.object t] := fun f hseen =>
      stack_of_seen (S := fun l' stack => l' = l → stack = [.object t]) hbuild hserve
        (fun l' t' ht' heq => by rw [heq, ht] at ht'; cases ht'; rfl)
        (fun l' f hmark heq => absurd (heq ▸ hmark) (hnever f)) hseen rfl
    refine ⟨fun fed' hperm g₁ h₁ =>
      feeds_perm hlaw hanti hall ht hentered hne hf hl hperm h₁, fun hsingle => ?_⟩
    exact exists_serve_feeds hlaw hall hf fun x hx l' hl' f hseen =>
      stack_of_seen
        (S := fun l' stack => l' ∈ g.protectors x.1 → ∃ v, stack = [v] ∧ width v = 1) hbuild hserve
        (fun _ t' _ _ => ⟨.object t', rfl, rfl⟩)
        (fun l' f hmark hl' => hsingle x hx l' hl' f hmark) hseen hl'

end JoinGraph

namespace Rivals

/-- The frame with one more local. -/
def longer : Frame := .ofValues [.integer, .float] []

theorem settled {f : Frame} (hf : f ∈ [frame, longer]) : f.Holds VType.Settled := by
  rcases List.mem_cons.mp hf with rfl | hf
  · exact ⟨fun v hv => by rw [List.mem_singleton.mp hv]; nofun, nofun⟩
  · rw [List.mem_singleton.mp hf]
    refine ⟨fun v hv => ?_, nofun⟩
    rcases List.mem_cons.mp hv with rfl | hv
    · nofun
    · rw [List.mem_singleton.mp hv]
      nofun

end Rivals

namespace JoinGraph

/-- Both orders of two frames lead to the same result at the first of the two handlers. -/
theorem arrivals_commute_rivals :
    ∃ g, build Hierarchy.javaLang.common Rivals.code Rivals.ranges = .ok g
      ∧ (∃ g₁ g₂,
        serve Hierarchy.javaLang.common [.mark ⟨2⟩ Rivals.frame, .mark ⟨2⟩ Rivals.longer] g = .ok g₁
          ∧ serve Hierarchy.javaLang.common [.mark ⟨2⟩ Rivals.longer, .mark ⟨2⟩ Rivals.frame] g
              = .ok g₂
          ∧ (g₂.frameAt? ⟨2⟩).map Frame.snapshot = (g₁.frameAt? ⟨2⟩).map Frame.snapshot)
      ∧ (∃ g₁ g₂ m,
        serve Hierarchy.javaLang.common [.feed 1 Rivals.frame, .feed 1 Rivals.longer] g = .ok g₁
          ∧ serve Hierarchy.javaLang.common [.feed 1 Rivals.longer, .feed 1 Rivals.frame] g = .ok g₂
          ∧ g₂.frameAt? ⟨2⟩ = some m ∧ (g₁.frameAt? ⟨2⟩).map Frame.snapshot = some m.snapshot
          ∧ m.stack = [.object .throwable]
          ∧ ∀ n, slotAt m.locals.toList n = slotMerge Hierarchy.javaLang.common n
              [Rivals.frame.locals.toList, Rivals.longer.locals.toList])
      ∧ ∃ g', build Hierarchy.javaLang.common Rivals.code Rivals.ranges.reverse = .ok g'
        ∧ ∀ l, g'.catchType? l = g.catchType? l := by
  refine ⟨_, rfl, ?_⟩
  obtain ⟨hmarks, hfeeds, hranges⟩ := @arrivals_commute _ Hierarchy.wellFormed_javaLang Rivals.code
    Rivals.ranges _ rfl [] _ nofun rfl
  -- the conditions on the frames are checked once, for both orders
  have hfed : ∀ x ∈ [(1, Rivals.frame), (1, Rivals.longer)],
      x.1 = 1 ∧ x.2 ∈ [Rivals.frame, Rivals.longer] := by decide
  refine ⟨?_, ?_, hranges _ (List.reverse_perm _).symm⟩
  · obtain ⟨g₂, h₂, hsame⟩ := hmarks ⟨2⟩ _ rfl rfl [Rivals.frame, Rivals.longer]
      [Rivals.longer, Rivals.frame] (.swap ..) (fun f hf => Rivals.settled hf) _ rfl
    exact ⟨_, g₂, rfl, h₂, hsame⟩
  · obtain ⟨hperm, hsucceeds⟩ := hfeeds ⟨2⟩ .throwable rfl (fun _ => List.not_mem_nil)
      [(1, Rivals.frame), (1, Rivals.longer)] (List.cons_ne_nil _ _)
      (fun x hx => Rivals.settled (hfed x hx).2) (fun x hx => by rw [(hfed x hx).1]; decide)
    obtain ⟨g₁, h₁⟩ := hsucceeds fun _ _ _ _ _ => nofun
    obtain ⟨g₂, m, h₂, hm⟩ := hperm [(1, Rivals.longer), (1, Rivals.frame)] (.swap ..) g₁ h₁
    exact ⟨g₁, g₂, m, h₁, h₂, hm⟩

/-- A handler that was never marked is not fed without fail: another handler of the same position,
where a frame with an empty stack was marked, refuses what is caught. -/
theorem feed_refused_beside_marked_handler :
    ∃ graph g fault, Hierarchy.javaLang.WellFormed
      ∧ build Hierarchy.javaLang.common Rivals.code Rivals.ranges = .ok graph
      ∧ serve Hierarchy.javaLang.common [.mark ⟨3⟩ .empty] graph = .ok g
      ∧ g.catchType? ⟨2⟩ = some .throwable ∧ ⟨2⟩ ∈ g.protectors 1
      ∧ Rivals.frame.Holds VType.Settled
      ∧ serve Hierarchy.javaLang.common [.feed 1 Rivals.frame] g = .error fault
      ∧ fault.cause = .incompatibleFrames ⟨3⟩ Frame.empty.snapshot
          (Rivals.frame.caught .throwable).snapshot (.depthMismatch 0 1) :=
  ⟨_, _, _, Hierarchy.wellFormed_javaLang, rfl, rfl, rfl, by decide, Rivals.settled (by decide), rfl,
    rfl⟩

end JoinGraph

end JvmFrames
