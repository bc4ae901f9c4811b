import JvmFrames.JoinGraph.Build
import JvmFrames.Proofs.JoinGraph.Growth

/-!
# The graph of a body

What is true of the graph that `JoinGraph.build` makes (`JoinGraph.Built`, `JoinGraph.Fresh`): a
label's position is where the body places it and nowhere else, every join point knows its position,
every target of a branch is a join point, and every handler that protects something has a catch
type. All of this except freshness is kept while frames arrive (`JoinGraph.Built.grows`).
-/

namespace JvmFrames

/-! ## Labelled allocations

Before its graph is made, a body is given labels for its allocations. All that is executed stays as
it was. -/

/-- Labelling allocations adds nothing but labels. -/
theorem mem_of_mem_labelAllocations {afterLabel : Bool} {next : Nat} {nodes : List Node} {node : Node}
    (h : node ∈ (labelAllocations afterLabel next nodes).1) (hnode : node.label? = none) :
    node ∈ nodes := by
  fun_induction labelAllocations afterLabel next nodes with
  | case1 => cases h
  -- the label that is put before a `new` is the only node to be added
  | case2 next rest c rest' last heq ih =>
    rw [heq] at ih
    rcases List.mem_cons.mp h with rfl | h
    · cases hnode
    · rcases List.mem_cons.mp h with rfl | h
      · exact List.mem_cons_self ..
      · exact List.mem_cons_of_mem _ (ih h)
  | case3 afterLabel next first rest rest' last heq _ ih =>
    rw [heq] at ih
    rcases List.mem_cons.mp h with rfl | h
    · exact List.mem_cons_self ..
    · exact List.mem_cons_of_mem _ (ih h)

/-- The site of an allocation is the label right before it. -/
theorem Code.node_of_siteBefore? {code : Code} {p : Nat} {l : Label}
    (h : code.siteBefore? p = some l) : ∃ r, p = r + 1 ∧ code.nodes[r]? = some (.label l) := by
  cases p with
  | zero => cases h
  | succ r =>
    obtain ⟨node, hnode, hl⟩ := Option.bind_eq_some_iff.mp h
    cases node with
    | label l' =>
      cases hl
      exact ⟨r, rfl, hnode⟩
    | _ => cases hl

/-! ## Where labels are placed

The positions of labels are collected in one pass. A body is refused if a label comes twice, so that
looking one up gives the one place it has. -/

/-- A pair is collected for each label of the body, with its position. -/
theorem mem_placementsFrom {nodes : List Node} {index p : Nat} {l : Label} :
    (l, p) ∈ placementsFrom index nodes ↔ ∃ i, p = index + i ∧ nodes[i]? = some (.label l) := by
  induction nodes generalizing index with
  | nil => simp [placementsFrom]
  | cons node rest ih =>
    -- the head sits at offset 0 and everything else one further
    have hsplit : (∃ i, p = index + i ∧ (node :: rest)[i]? = some (.label l))
        ↔ (p = index ∧ node = .label l)
          ∨ ∃ i, p = index + 1 + i ∧ rest[i]? = some (.label l) := by
      constructor
      · rintro ⟨i, hp, hi⟩
        cases i with
        | zero => exact Or.inl ⟨hp, by simpa using hi⟩
        | succ i => exact Or.inr ⟨i, by omega, by simpa using hi⟩
      · rintro (⟨hp, hnode⟩ | ⟨i, hp, hi⟩)
        · exact ⟨0, hp, by simpa using hnode⟩
        · exact ⟨i + 1, by omega, by simpa using hi⟩
    rw [hsplit, ← ih]
    cases node with
    | label l' =>
      rw [placementsFrom, List.mem_cons, Prod.mk.injEq, Node.label.injEq]
      constructor
      · rintro (⟨hl, hp⟩ | hrest)
        · exact Or.inl ⟨hp, hl.symm⟩
        · exact Or.inr hrest
      · rintro (⟨hp, hl⟩ | hrest)
        · exact Or.inl ⟨hl.symm, hp⟩
        · exact Or.inr hrest
    | insn i => simp [placementsFrom]
    | branch b => simp [placementsFrom]
    | frame s => simp [placementsFrom]

/-- If no label is found to be repeated, none is. -/
theorem nodup_of_repeatedLabel? {seen labels : List Label} (h : repeatedLabel? seen labels = none) :
    labels.Nodup ∧ ∀ l ∈ labels, l ∉ seen := by
  induction labels generalizing seen with
  | nil => exact ⟨List.nodup_nil, by simp⟩
  | cons l rest ih =>
    rw [repeatedLabel?] at h
    by_cases hl : l ∈ seen
    · rw [if_pos hl] at h
      cases h
    · rw [if_neg hl] at h
      -- `l` joins the labels seen, so it cannot come again in the rest
      obtain ⟨hnodup, hdisjoint⟩ := ih h
      refine ⟨List.nodup_cons.mpr ⟨fun hmem => hdisjoint l hmem (List.mem_cons_self ..), hnodup⟩, ?_⟩
      intro l' hl'
      rcases List.mem_cons.mp hl' with rfl | hrest
      · exact hl
      · exact fun hseen => hdisjoint l' hrest (List.mem_cons_of_mem _ hseen)

/-- In a list of pairs that has each first part once, looking up finds exactly the members. -/
theorem lookup_eq_some_iff_mem {pairs : List (Label × Nat)} (h : (pairs.map (·.1)).Nodup)
    {l : Label} {p : Nat} : pairs.lookup l = some p ↔ (l, p) ∈ pairs := by
  induction pairs with
  | nil => simp
  | cons pair rest ih =>
    obtain ⟨l', p'⟩ := pair
    rw [List.map_cons, List.nodup_cons] at h
    rw [List.lookup_cons, List.mem_cons, Prod.mk.injEq]
    by_cases hl : l = l'
    · -- found at the head; no member of the rest has this label
      subst hl
      have hrest : (l, p) ∉ rest := fun hmem => h.1 (List.mem_map.mpr ⟨(l, p), hmem, rfl⟩)
      simp [hrest, eq_comm]
    · have hbeq : (l == l') = false := by simpa using hl
      simp [hbeq, hl, ih h.2]

namespace JoinGraph

variable {oracle : Oracle} {code : Code} {g g' : JoinGraph} {l : Label} {j k : JoinPoint}

/-- A label's position, if it has one. -/
theorem position_eq_ok_iff {p : Nat} : g.position l = .ok p ↔ g.placements.lookup l = some p := by
  rw [position]
  cases g.placements.lookup l with
  | none => simp
  | some q => simp

/-- What holds of the graph of a body, whatever has arrived at its join points. -/
structure Built (code : Code) (g : JoinGraph) : Prop where
  placed : ∀ l p, g.position l = .ok p ↔ code.nodes[p]? = some (.label l)
  nodup : (g.joins.map (·.label)).Nodup
  position : ∀ l j, g.join? l = some j → g.position l = .ok j.position
  staffed : ∀ guard ∈ g.guards, (g.catchType? guard.handler).isSome = true
  targets : ∀ (p : Nat) (b : Branch), code.nodes[p]? = some (.branch b) →
    ∀ t ∈ b.targets, g.isJoin t = true

/-- Nothing has arrived anywhere. -/
def Fresh (g : JoinGraph) : Prop :=
  ∀ l j, g.join? l = some j → j.merged = none ∧ j.seen = [] ∧ j.isPending = false

namespace Built

/-- What holds of the graph of a body still holds when frames have arrived. -/
theorem grows (h : g.Built code) (hgrow : g.Grows g') : g'.Built code where
  placed := fun l p => by rw [hgrow.position_eq]; exact h.placed l p
  nodup := by rw [hgrow.labels]; exact h.nodup
  position := fun l k hk => by
    obtain ⟨j, hj, hgrows⟩ := hgrow.join_of_later hk
    rw [hgrow.position_eq, hgrows.position]
    exact h.position l j hj
  staffed := fun guard hguard => by
    rw [hgrow.guards] at hguard
    rw [hgrow.catchType?_eq]
    exact h.staffed guard hguard
  targets := fun p b hb t ht => by rw [hgrow.isJoin]; exact h.targets p b hb t ht

/-- A join point stands where its label is placed. -/
theorem position_of_node (h : g.Built code) {p : Nat} (hnode : code.nodes[p]? = some (.label l))
    (hj : g.join? l = some j) : j.position = p := by
  have hp := (h.placed l p).mpr hnode
  rw [h.position l j hj] at hp
  exact Except.ok.inj hp

theorem node_of_join? (h : g.Built code) (hj : g.join? l = some j) :
    code.nodes[j.position]? = some (.label l) :=
  (h.placed l j.position).mp (h.position l j hj)

/-- No two join points have one label, so each is found under its own. -/
theorem join?_of_mem (h : g.Built code) (hj : j ∈ g.joins) : g.join? j.label = some j := by
  have hnodup := h.nodup
  unfold join?
  -- the induction is on the list of join points, not on the graph
  revert hnodup hj
  induction g.joins with
  | nil => intro hj; cases hj
  | cons i rest ih =>
    intro hj hnodup
    rw [List.map_cons, List.nodup_cons] at hnodup
    rw [List.find?_cons]
    rcases List.mem_cons.mp hj with rfl | hmem
    · simp
    · have hne : ¬ i.label = j.label := fun heq =>
        hnodup.1 (heq ▸ List.mem_map.mpr ⟨j, hmem, rfl⟩)
      simp only [hne, decide_false]
      exact ih hmem hnodup.2

/-- A handler that protects a position has a catch type. -/
theorem catchType?_of_protects (h : g.Built code) {p : Nat} (hl : l ∈ g.protectors p) :
    ∃ t, g.catchType? l = some t := by
  rw [protectors, List.mem_eraseDups] at hl
  obtain ⟨guard, hguard, rfl⟩ := List.mem_map.mp hl
  exact Option.isSome_iff_exists.mp (h.staffed guard (List.mem_filter.mp hguard).1)

/-- Feeding the handlers of a position leaves each of them with the frame. -/
theorem catches_of_feed {p : Nat} {f : Frame} (h : g.Built code)
    (hfeed : g.feed oracle p f = .ok g') : g'.Catches g'.Seen p f := by
  have hgrow := grows_feed hfeed
  intro l hl
  rw [hgrow.protectors_eq] at hl
  obtain ⟨t, ht⟩ := h.catchType?_of_protects hl
  exact ⟨t, (hgrow.catchType?_eq l).trans ht, seen_of_feedHandlers hfeed hl ht⟩

end Built

/-- If no handler is next in turn, none is marked. -/
theorem nextPending?_eq_none (h : g.Built code) (hmarked : g.Marked) (hidle : g.nextPending? = none)
    (l : Label) (j : JoinPoint) (hj : g.join? l = some j) : j.isPending = false := by
  unfold nextPending? at hidle
  cases hfind : g.joins.find? JoinPoint.isPending with
  | none =>
    rw [List.find?_eq_none] at hfind
    simpa using hfind j (mem_of_join? hj)
  | some i =>
    -- a marked handler has a frame, and would be next
    rw [hfind] at hidle
    have hi := h.join?_of_mem (List.mem_of_find?_eq_some hfind)
    have hsome := hmarked _ i hi (List.find?_some hfind)
    simp only [Option.map_eq_none_iff] at hidle
    rw [hidle] at hsome
    cases hsome

/-! ## The graph is made join point by join point

Targets of branches are added first and handlers afterwards. One invariant, `Prepared`, goes through
all of it; what is left to show at the end is that every target has become a join point. -/

/-- A new join point is found under its label, and a label that has one keeps it. -/
theorem join?_addJoin (g : JoinGraph) (l l' : Label) (p : Nat) :
    (g.addJoin l p).join? l'
      = if g.isJoin l = false ∧ l' = l then some (.unreached l p) else g.join? l' := by
  rw [addJoin]
  cases hjoin : g.isJoin l with
  | true => simp
  | false =>
    -- there was none under this label, so the new one, at the end, is found
    have hnone : g.join? l = none := by simpa [isJoin] using hjoin
    simp only [Bool.false_eq_true, if_false, true_and, join?, List.find?_append]
    by_cases hl : l' = l
    · subst hl
      rw [if_pos rfl]
      have hfind : g.joins.find? (fun j => j.label = l') = none := hnone
      rw [hfind]
      simp [JoinPoint.unreached]
    · have hne : ¬ l = l' := fun h => hl h.symm
      simp [JoinPoint.unreached, hl, hne]

theorem isJoin_addJoin (g : JoinGraph) (l l' : Label) (p : Nat) :
    (g.addJoin l p).isJoin l' = true ↔ g.isJoin l' = true ∨ l' = l := by
  rw [isJoin, join?_addJoin]
  by_cases hl : l' = l
  · subst hl
    cases hjoin : g.isJoin l' with
    | true => simpa [isJoin] using hjoin
    | false => simp
  · simp [hl, isJoin]

/-- What one step of making the graph of a body keeps: `Built` without the branches, and that
nothing has arrived. -/
structure Prepared (code : Code) (g : JoinGraph) : Prop where
  placed : ∀ l p, g.position l = .ok p ↔ code.nodes[p]? = some (.label l)
  nodup : (g.joins.map (·.label)).Nodup
  position : ∀ l j, g.join? l = some j → g.position l = .ok j.position
  staffed : ∀ guard ∈ g.guards, (g.catchType? guard.handler).isSome = true
  fresh : g.Fresh

/-- The graph that knows only where labels are placed is prepared. -/
theorem prepared_ofPlacements (h : ofPlacements code = .ok g) : g.Prepared code := by
  unfold ofPlacements at h
  simp only at h
  cases hrep : repeatedLabel? [] ((placementsFrom 0 code.nodes.toList).map (·.1)) with
  | some l => rw [hrep] at h; cases h
  | none =>
    rw [hrep] at h
    cases h
    have hnodup := (nodup_of_repeatedLabel? hrep).1
    refine ⟨fun l p => ?_, List.nodup_nil, ?_, ?_, ?_⟩
    · rw [position_eq_ok_iff, lookup_eq_some_iff_mem hnodup, mem_placementsFrom]
      simp
    · intro l j hj; cases hj
    · intro guard hguard; cases hguard
    · intro l j hj; cases hj

/-- Adding a join point keeps a graph prepared. -/
theorem Prepared.addJoin {p : Nat} (h : g.Prepared code) (hp : g.position l = .ok p) :
    (g.addJoin l p).Prepared code := by
  have hplacements : (g.addJoin l p).placements = g.placements := by
    rw [JoinGraph.addJoin]; split <;> rfl
  have hguards : (g.addJoin l p).guards = g.guards := by
    rw [JoinGraph.addJoin]; split <;> rfl
  have hposition : ∀ l', (g.addJoin l p).position l' = g.position l' := fun l' => by
    rw [JoinGraph.position, JoinGraph.position, hplacements]
  refine ⟨fun l' q => by rw [hposition]; exact h.placed l' q, ?_, ?_, ?_, ?_⟩
  · rw [JoinGraph.addJoin]
    split
    · exact h.nodup
    · next hjoin =>
      simp only [List.map_append, List.map_cons, List.map_nil]
      rw [List.nodup_append]
      refine ⟨h.nodup, by simp, ?_⟩
      intro a ha b hb hab
      rw [List.mem_singleton] at hb
      subst hab hb
      exact hjoin (isJoin_iff_mem_labels.mpr ha)
  · intro l' j hj
    rw [hposition]
    rw [join?_addJoin] at hj
    split at hj
    · next hnew =>
      cases hj
      rw [hnew.2]
      exact hp
    · exact h.position l' j hj
  · intro guard hguard
    rw [hguards] at hguard
    have hsome := h.staffed guard hguard
    rw [catchType?, join?_addJoin]
    split
    · next hnew =>
      -- the handler of a guard is a join point already, so it is not the new one
      rw [catchType?] at hsome
      have hnone : g.join? guard.handler = none := by
        rw [hnew.2]; simpa [isJoin] using hnew.1
      rw [hnone] at hsome
      simp at hsome
    · exact hsome
  · intro l' j hj
    rw [join?_addJoin] at hj
    split at hj
    · cases hj
      exact ⟨rfl, rfl, rfl⟩
    · exact h.fresh l' j hj

/-- Adding the targets of branches keeps a graph prepared, and makes join points of them. -/
theorem prepared_addTargets {labels : List Label} (hg : g.Prepared code)
    (h : g.addTargets labels = .ok g') :
    g'.Prepared code ∧ (∀ l, g.isJoin l = true → g'.isJoin l = true)
      ∧ ∀ l ∈ labels, g'.isJoin l = true := by
  induction labels generalizing g with
  | nil => cases h; exact ⟨hg, fun _ hl => hl, by simp⟩
  | cons l rest ih =>
    rw [addTargets] at h
    cases hp : g.position l with
    | error e => rw [hp] at h; cases h
    | ok p =>
      rw [hp] at h
      obtain ⟨hprepared, hkeep, hall⟩ := ih (hg.addJoin hp) h
      refine ⟨hprepared, fun l' hl' => hkeep l' ((isJoin_addJoin g l l' p).mpr (Or.inl hl')), ?_⟩
      intro l' hl'
      -- the first target has become a join point, and stays one while the rest is added
      rcases List.mem_cons.mp hl' with rfl | hrest
      · exact hkeep l' ((isJoin_addJoin g l' l' p).mpr (Or.inr rfl))
      · exact hall l' hrest

/-- A handler's own part of a join point once it has one more range, which catches `t`. -/
def widened (oracle : Oracle) (j : JoinPoint) (t : RefType) : HandlerState :=
  match j.handler with
  | none => ⟨t, false⟩
  | some s => { s with catchType := oracle s.catchType t }

/-- The graph with one more guard, after its handler has become a join point with the given part. -/
def guarded (g : JoinGraph) (guard : Guard) (j : JoinPoint) (s : HandlerState) : JoinGraph :=
  ({ g with guards := g.guards ++ [guard] } : JoinGraph).setJoin { j with handler := some s }

/-- What adding a range does: its handler becomes a join point if it is none, and is widened. -/
theorem addRange_cases {range : ProtectedRange} (h : g.addRange oracle range = .ok g') :
    ∃ start stop entry j, g.position range.start = .ok start ∧ g.position range.stop = .ok stop
      ∧ g.position range.handler = .ok entry
      ∧ (g.addJoin range.handler entry).join? range.handler = some j
      ∧ g' = (g.addJoin range.handler entry).guarded ⟨start, stop, range.handler⟩ j
          (widened oracle j range.caught) := by
  unfold addRange at h
  cases hstart : g.position range.start with
  | error e => rw [hstart] at h; cases h
  | ok start =>
    cases hstop : g.position range.stop with
    | error e => rw [hstart, hstop] at h; cases h
    | ok stop =>
      cases hentry : g.position range.handler with
      | error e => rw [hstart, hstop, hentry] at h; cases h
      | ok entry =>
        rw [hstart, hstop, hentry] at h
        -- the handler is a join point by now, so the lookup in `addRange` does not fail
        have hjoin : (g.addJoin range.handler entry).isJoin range.handler = true :=
          (isJoin_addJoin g range.handler range.handler entry).mpr (Or.inr rfl)
        obtain ⟨j, hj⟩ := exists_join?_of_isJoin hjoin
        refine ⟨start, stop, entry, j, rfl, rfl, rfl, hj, ?_⟩
        simp only [bind, Except.bind, pure, Except.pure] at h
        have hj' : ({ g.addJoin range.handler entry with
            guards := (g.addJoin range.handler entry).guards
              ++ [⟨start, stop, range.handler⟩] } : JoinGraph).join? range.handler = some j := hj
        rw [hj'] at h
        exact (Except.ok.inj h).symm

theorem join?_guarded (guard : Guard) (s : HandlerState) (hj : g.join? l = some j) (l' : Label) :
    (g.guarded guard j s).join? l' = if l' = l then some { j with handler := some s }
      else g.join? l' :=
  join?_setJoin (g := { g with guards := g.guards ++ [guard] })
    (k := { j with handler := some s }) hj rfl l'

/-- Adding a guard keeps a graph prepared, since its handler has been given a catch type. -/
theorem Prepared.guarded (guard : Guard) {s : HandlerState} (h : g.Prepared code)
    (hj : g.join? guard.handler = some j) (hs : s.pending = false) :
    (g.guarded guard j s).Prepared code := by
  -- the join point of the handler is replaced, all others are as they were
  have hlookup := join?_guarded guard s hj
  refine ⟨h.placed, ?_, ?_, ?_, ?_⟩
  · rw [JoinGraph.guarded, labels_setJoin]
    exact h.nodup
  · intro l i hi
    have hsame : (g.guarded guard j s).position l = g.position l := rfl
    rw [hlookup] at hi
    rw [hsame]
    split at hi
    · next hl =>
      cases hi
      rw [hl]
      exact h.position guard.handler j hj
    · exact h.position l i hi
  · intro guard' hguard'
    rw [catchType?, hlookup]
    split
    · rfl
    · next hne =>
      -- the new guard has the handler that was just given a catch type
      rcases List.mem_append.mp hguard' with hold | hnew
      · exact h.staffed guard' hold
      · rw [List.mem_singleton] at hnew
        exact absurd (by rw [hnew]) hne
  · intro l i hi
    rw [hlookup] at hi
    split at hi
    · cases hi
      obtain ⟨hmerged, hseen, _⟩ := h.fresh guard.handler j hj
      exact ⟨hmerged, hseen, hs⟩
    · exact h.fresh l i hi

/-- A handler is not marked by a further range. -/
theorem pending_widened (oracle : Oracle) (t : RefType) (h : j.isPending = false) :
    (widened oracle j t).pending = false := by
  rw [widened]
  rw [JoinPoint.isPending] at h
  cases hs : j.handler with
  | none => rfl
  | some s => simpa [hs] using h

/-- Adding the exception table keeps a graph prepared and all of its join points. -/
theorem prepared_addRanges {ranges : List ProtectedRange} (hg : g.Prepared code)
    (h : g.addRanges oracle ranges = .ok g') :
    g'.Prepared code ∧ ∀ l, g.isJoin l = true → g'.isJoin l = true := by
  induction ranges generalizing g with
  | nil => cases h; exact ⟨hg, fun _ hl => hl⟩
  | cons range rest ih =>
    rw [addRanges] at h
    cases hrange : g.addRange oracle range with
    | error e => rw [hrange] at h; cases h
    | ok g₁ =>
      rw [hrange] at h
      obtain ⟨start, stop, entry, j, _, _, hentry, hj, rfl⟩ := addRange_cases hrange
      have hadd := hg.addJoin hentry
      -- the handler is as fresh as the join point that it widens
      have hpending := pending_widened oracle range.caught (hadd.fresh range.handler j hj).2.2
      obtain ⟨hprepared, hkeep⟩ := ih (hadd.guarded ⟨start, stop, range.handler⟩ hj hpending) h
      refine ⟨hprepared, fun l hl => hkeep l ?_⟩
      rw [isJoin, join?_guarded _ _ hj]
      split
      · rfl
      · exact (isJoin_addJoin g range.handler l entry).mpr (Or.inl hl)

theorem mem_jumpTargets {nodes : List Node} {b : Branch} {t : Label} (hb : .branch b ∈ nodes)
    (ht : t ∈ b.targets) : t ∈ jumpTargets nodes :=
  List.mem_flatMap.mpr ⟨.branch b, hb, ht⟩

/-- The graph of a body is as it should be, and nothing has arrived anywhere. -/
theorem built_of_build {ranges : List ProtectedRange} (h : build oracle code ranges = .ok g) :
    g.Built code ∧ g.Fresh := by
  unfold build at h
  cases hjumps : ofJumps code with
  | error e => rw [hjumps] at h; cases h
  | ok g₁ =>
    rw [hjumps] at h
    unfold ofJumps at hjumps
    cases hplaced : ofPlacements code with
    | error e => rw [hplaced] at hjumps; cases hjumps
    | ok g₀ =>
      rw [hplaced] at hjumps
      -- the targets of branches are made join points first, and adding ranges keeps them so
      obtain ⟨hprepared, _, htargets⟩ := prepared_addTargets (prepared_ofPlacements hplaced) hjumps
      obtain ⟨hfinal, hkeep⟩ := prepared_addRanges hprepared h
      refine ⟨⟨hfinal.placed, hfinal.nodup, hfinal.position, hfinal.staffed, ?_⟩, hfinal.fresh⟩
      intro p b hb t ht
      have hmem : Node.branch b ∈ code.nodes.toList := by
        rw [← Array.getElem?_toList] at hb
        exact List.mem_of_getElem? hb
      exact hkeep t (htargets t (mem_jumpTargets hmem ht))

/-! ## Catch types

A handler catches what the types of its ranges have in common, so a property that is kept by the
oracle goes from the exception table to all catch types. -/

/-- A new join point is no handler yet. -/
theorem catchType?_addJoin (g : JoinGraph) (l l' : Label) (p : Nat) :
    (g.addJoin l p).catchType? l' = g.catchType? l' := by
  rw [catchType?, catchType?, join?_addJoin]
  split
  · next hnew =>
    obtain ⟨hjoin, rfl⟩ := hnew
    have hnone : g.join? l' = none := by simpa [isJoin] using hjoin
    rw [hnone]
    rfl
  · rfl

/-- The targets of branches are no handlers yet. -/
theorem catchType?_addTargets {labels : List Label} (h : g.addTargets labels = .ok g') (l : Label) :
    g'.catchType? l = g.catchType? l := by
  induction labels generalizing g with
  | nil => cases h; rfl
  | cons l₀ rest ih =>
    rw [addTargets] at h
    cases hp : g.position l₀ with
    | error e => rw [hp] at h; cases h
    | ok p =>
      rw [hp] at h
      exact (ih h).trans (catchType?_addJoin g l₀ l p)

section

variable {P : RefType → Prop} (hcommon : ∀ a b, P a → P b → P (oracle a b))

include hcommon

/-- A range widens the catch type of its own handler, by the type it catches. -/
theorem catchType?_of_addRange {range : ProtectedRange} (hcaught : P range.caught)
    (hg : ∀ l t, g.catchType? l = some t → P t) (h : g.addRange oracle range = .ok g') :
    ∀ l t, g'.catchType? l = some t → P t := by
  obtain ⟨start, stop, entry, j, _, _, _, hj, rfl⟩ := addRange_cases h
  -- the type that is widened was the catch type of this handler before
  have hold : ∀ s, j.handler = some s → P s.catchType := by
    intro s hs
    refine hg range.handler s.catchType ?_
    rw [← catchType?_addJoin g range.handler range.handler entry, catchType?_of_join? hj, hs]
    rfl
  have hwidened : P (widened oracle j range.caught).catchType := by
    unfold widened
    split
    · exact hcaught
    · next s hs => exact hcommon _ _ (hold s hs) hcaught
  intro l t ht
  rw [catchType?, join?_guarded _ _ hj] at ht
  split at ht
  · cases ht
    exact hwidened
  · exact hg l t ((catchType?_addJoin g range.handler l entry).symm.trans ht)

/-- All ranges of the exception table have been added with the property. -/
theorem catchType?_of_addRanges {ranges : List ProtectedRange}
    (hcaught : ∀ range ∈ ranges, P range.caught) (hg : ∀ l t, g.catchType? l = some t → P t)
    (h : g.addRanges oracle ranges = .ok g') : ∀ l t, g'.catchType? l = some t → P t := by
  induction ranges generalizing g with
  | nil => cases h; exact hg
  | cons range rest ih =>
    rw [addRanges] at h
    cases hrange : g.addRange oracle range with
    | error e => rw [hrange] at h; cases h
    | ok g₁ =>
      rw [hrange] at h
      have hfirst := hcaught range (List.mem_cons_self ..)
      exact ih (fun r hr => hcaught r (List.mem_cons_of_mem _ hr))
        (catchType?_of_addRange hcommon hfirst hg hrange) h

/-- What is true of all types in the exception table, and of what such types have in common, is true
of the catch types of all handlers. -/
theorem catchType?_of_build {ranges : List ProtectedRange}
    (hcaught : ∀ range ∈ ranges, P range.caught) (h : build oracle code ranges = .ok g) (l : Label)
    (t : RefType) (ht : g.catchType? l = some t) : P t := by
  unfold build ofJumps at h
  cases hplaced : ofPlacements code with
  | error e => rw [hplaced] at h; cases h
  | ok g₀ =>
    rw [hplaced] at h
    cases htargets : g₀.addTargets (jumpTargets code.nodes.toList) with
    | error e =>
      simp only [bind, Except.bind, htargets] at h
      cases h
    | ok g₁ =>
      simp only [bind, Except.bind, htargets] at h
      refine catchType?_of_addRanges hcommon hcaught ?_ h l t ht
      intro l' t' ht'
      rw [catchType?_addTargets htargets] at ht'
      -- to begin with there are no join points at all
      unfold ofPlacements at hplaced
      simp only at hplaced
      split at hplaced
      · cases hplaced
      · cases hplaced
        cases ht'

end

end JoinGraph

end JvmFrames
