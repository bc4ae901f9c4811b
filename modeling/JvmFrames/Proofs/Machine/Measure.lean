import Mathlib.Algebra.GroupWithZero.Nat
import Mathlib.Data.List.Sections
import Mathlib.Data.Prod.Lex
import JvmFrames.Proofs.Assignable
import JvmFrames.Proofs.Machine.Flow

/-!
# A measure for runs

Frames do not get steadily larger or smaller while they are merged, so nothing about a frame shows
that a run comes to an end. What does is that a join point never takes the same snapshot twice.
Once it has been reached the depth of its stack is fixed, and if values and words of locals are
bounded as well (`Bound`), only so many snapshots are left to arrive there (`JoinPoint.room`).

Every move makes a machine smaller in the lexicographic order of `Machine.measure`: the join points
not reached yet, the room at the others, the paths and handlers waiting, and the nodes left on the
path.
-/

namespace JvmFrames

/-- What the frames of a run are made of. -/
structure Bound where
  values : List VType
  /-- The most words that locals take. -/
  words : Nat

/-- A frame keeps to a bound. -/
def Frame.Within (b : Bound) (f : Frame) : Prop :=
  f.Holds (· ∈ b.values) ∧ f.locals.words ≤ b.words

/-! ## The snapshots within a bound

The locals of a snapshot are at most as many as the words allowed, and its stack has a fixed depth.
So all snapshots within a bound can be listed: one list of values for each choice of a value in each
place. -/

/-- All snapshots within a bound whose stack has `depth` values. -/
def Bound.snapshots (b : Bound) (depth : Nat) : List (Snapshot VType) :=
  (List.range (b.words + 1)).flatMap fun n =>
    (List.replicate n b.values).sections.flatMap fun locals =>
      (List.replicate depth b.values).sections.map fun stack => ⟨locals, stack⟩

/-- A list of allowed values is one of the choices of an allowed value for each place. -/
theorem mem_sections_replicate {α : Type} {values l : List α} (h : ∀ v ∈ l, v ∈ values) :
    l ∈ (List.replicate l.length values).sections := by
  rw [List.mem_sections]
  induction l with
  | nil => exact .nil
  | cons v rest ih =>
    exact .cons (h v (List.mem_cons_self ..)) (ih fun w hw => h w (List.mem_cons_of_mem _ hw))

/-- The snapshot of a frame within a bound is listed. Its locals are fewer than the words of the
frame, since what is left out takes words and what stays takes at least one each. -/
theorem Frame.Within.snapshot_mem {b : Bound} {f : Frame} (h : f.Within b) :
    f.snapshot ∈ b.snapshots f.stack.length := by
  obtain ⟨⟨hlocals, hstack⟩, hwords⟩ := h
  obtain ⟨n, htrim⟩ := exists_eq_trim_append f.locals.toList
  -- every local takes a word, and those trimmed away took some as well
  have hlength : (Snapshot.trim f.locals.toList).length ≤ b.words := by
    have hall := length_le_wordCount f.locals.toList
    rw [WordSeq.words_eq_wordCount] at hwords
    rw [htrim, List.length_append] at hall
    rw [htrim] at hwords
    omega
  have htrimmed : ∀ v ∈ Snapshot.trim f.locals.toList, v ∈ b.values := by
    intro v hv
    refine hlocals v ?_
    rw [htrim]
    exact List.mem_append_left _ hv
  have hreversed : ∀ v ∈ f.stack.reverse, v ∈ b.values :=
    fun v hv => hstack v (List.mem_reverse.mp hv)
  refine List.mem_flatMap.mpr ⟨_, List.mem_range.mpr (Nat.lt_succ_of_le hlength), ?_⟩
  refine List.mem_flatMap.mpr ⟨_, mem_sections_replicate htrimmed, ?_⟩
  refine List.mem_map.mpr ⟨f.stack.reverse, ?_, rfl⟩
  rw [← List.length_reverse]
  exact mem_sections_replicate hreversed

/-! ## Join points and graphs

A join point that was never reached may be reached at any depth, so it has to be counted apart:
reaching it for the first time may open up any amount of room. -/

namespace JoinPoint

/-- One for a join point that nothing has reached. -/
def ahead (j : JoinPoint) : Nat := if j.merged.isSome then 0 else 1

/-- The number of snapshots that may still arrive at a join point, once its depth is known. -/
def room (b : Bound) (j : JoinPoint) : Nat :=
  j.merged.elim 0 fun f => (b.snapshots f.stack.length).countP fun s => !j.seen.contains s

/-- One for a handler that is to be taken up. -/
def waiting (j : JoinPoint) : Nat := if j.isPending then 1 else 0

variable {b : Bound} {oracle : Oracle} {j k : JoinPoint} {f : Frame}

/-- A snapshot that was not seen and is now leaves fewer that are not. -/
theorem countP_unseen_lt {snapshots seen : List (Snapshot VType)} {s : Snapshot VType}
    (hs : s ∈ snapshots) (hnew : s ∉ seen) :
    snapshots.countP (fun x => !(s :: seen).contains x)
      < snapshots.countP (fun x => !seen.contains x) := by
  -- those not in `s :: seen` are among those not in `seen`, without `s` itself
  have hsub : (snapshots.filter (fun x => !(s :: seen).contains x)).Sublist
      ((snapshots.filter (fun x => !seen.contains x)).filter (· ≠ s)) := by
    rw [List.filter_filter]
    refine List.monotone_filter_right _ fun x hx => ?_
    simpa using hx
  have hmem : s ∈ snapshots.filter (fun x => !seen.contains x) :=
    List.mem_filter.mpr ⟨hs, by simpa using hnew⟩
  rw [List.countP_eq_length_filter, List.countP_eq_length_filter]
  calc (snapshots.filter (fun x => !(s :: seen).contains x)).length
      ≤ ((snapshots.filter (fun x => !seen.contains x)).filter (· ≠ s)).length := hsub.length_le
    _ < (snapshots.filter (fun x => !seen.contains x)).length :=
        List.length_filter_lt_length_iff_exists.mpr ⟨s, hmem, by simp⟩

/-- A reception either reaches a join point for the first time or takes up room there. -/
theorem Receives.lowers (hf : f.Within b) (h : j.Receives oracle f k) :
    k.ahead < j.ahead ∨ (k.ahead = j.ahead ∧ k.room b < j.room b) := by
  cases h with
  | first hnew hnone =>
    refine Or.inl ?_
    simp [ahead, hnone]
  | joined current m hnew hcurrent hmerge =>
    -- merging keeps the depth, so the snapshots that may come are the same ones less this one
    obtain ⟨hlength, hlength', _⟩ := Frame.stack_of_merge hmerge
    refine Or.inr ⟨by simp [ahead, hcurrent], ?_⟩
    have hmem := hf.snapshot_mem
    rw [← hlength', ← hlength] at hmem
    rw [room, room, hcurrent, Option.elim_some, Option.elim_some, ← hlength]
    exact countP_unseen_lt hmem hnew

end JoinPoint

namespace JoinGraph

/-- The sum of a quantity over all join points. -/
def total (φ : JoinPoint → Nat) (g : JoinGraph) : Nat := (g.joins.map φ).sum

/-- How much may still arrive: the join points not reached, then the room at the others. -/
def rank (b : Bound) (g : JoinGraph) : ℕ ×ₗ ℕ :=
  toLex (g.total JoinPoint.ahead, g.total (JoinPoint.room b))

variable {b : Bound} {code : Code} {oracle : Oracle} {graph g g' : JoinGraph} {j k : JoinPoint}
variable {f : Frame} {l : Label} {p : Nat}

/-- Replacing a join point changes a total by what it changes at that join point, since labels are
distinct. -/
theorem total_setJoin (φ : JoinPoint → Nat) (hg : g.Built code) (hj : g.join? l = some j)
    (hk : k.label = j.label) : (g.setJoin k).total φ + φ j = g.total φ + φ k := by
  have hmem := mem_of_join? hj
  have hnodup := hg.nodup
  unfold total setJoin
  simp only
  revert hmem hnodup
  induction g.joins with
  | nil => intro hmem; cases hmem
  | cons i rest ih =>
    intro hmem hnodup
    rw [List.map_cons, List.nodup_cons] at hnodup
    simp only [List.map_cons, List.sum_cons]
    rcases List.mem_cons.mp hmem with rfl | hmem
    · -- no other join point has this label, so the rest stays as it is
      have hrest : rest.map (fun i => if i.label = k.label then k else i) = rest := by
        rw [List.map_congr_left (g := id), List.map_id]
        intro i hi
        refine if_neg fun heq => hnodup.1 ?_
        rw [← hk, ← heq]
        exact List.mem_map_of_mem hi
      rw [hrest, if_pos hk.symm]
      omega
    · have hne : i.label ≠ k.label := by
        intro heq
        refine hnodup.1 ?_
        rw [heq, hk]
        exact List.mem_map_of_mem hmem
      have hsum := ih hmem hnodup.2
      rw [if_neg hne]
      omega

/-- A graph gets smaller with a join point, whatever becomes of its mark. -/
theorem rank_setJoin_lt (hg : g.Built code) (hj : g.join? l = some j) (hk : k.label = j.label)
    (hlower : k.ahead < j.ahead ∨ (k.ahead = j.ahead ∧ k.room b < j.room b)) :
    (g.setJoin k).rank b < g.rank b := by
  have hahead := total_setJoin JoinPoint.ahead hg hj hk
  have hroom := total_setJoin (JoinPoint.room b) hg hj hk
  rw [rank, rank, Prod.Lex.toLex_lt_toLex]
  show _ < _ ∨ _ = _ ∧ _ < _
  omega

/-- The frames that the handlers of a graph make of frames within a bound are within it. -/
def Keeps (b : Bound) (g : JoinGraph) : Prop :=
  ∀ l t, g.catchType? l = some t → .object t ∈ b.values

/-- A handler that catches a type among the values keeps frames within the bound. -/
theorem Keeps.caught {t : RefType} (h : g.Keeps b) (ht : g.catchType? l = some t)
    (hf : f.Within b) : (f.caught t).Within b := by
  refine ⟨⟨hf.1.1, fun v hv => ?_⟩, hf.2⟩
  rw [List.mem_singleton.mp hv]
  exact h l t ht

/-- The frame that a handler is entered with is within the bound, whichever of its types it has by
then. -/
theorem Keeps.entering {s : HandlerState} (h : graph.Keeps b) (hgrow : graph.Grows g)
    (hj : g.join? l = some j) (hs : j.handler = some s) (hf : f.Within b) :
    (f.entering s).Within b := by
  have ht : graph.catchType? l = some s.catchType := by
    rw [← hgrow.catchType?_eq l, catchType?_of_join? hj, hs]
    rfl
  exact h.caught ht hf

/-- Feeding handlers changes nothing or makes the graph smaller. -/
theorem rank_feed (hbuilt : graph.Built code) (hkeeps : graph.Keeps b) (hgrow : graph.Grows g)
    (hf : f.Within b) (h : g.feed oracle p f = .ok g') : g' = g ∨ g'.rank b < g.rank b := by
  refine (feed_induction (motive := fun g₁ => graph.Grows g₁ ∧ (g₁ = g ∨ g₁.rank b < g.rank b))
    ?_ h ⟨hgrow, Or.inl rfl⟩).2
  rintro g₁ l j k s _ ⟨hgrow₁, hrank⟩ hj hs hk
  refine ⟨hgrow₁.trans (.setJoin hj hk.grows_alerted), Or.inr ?_⟩
  have hlower := hk.lowers (hkeeps.entering hgrow₁ hj hs hf)
  have hlt : (g₁.setJoin (k.alerted j)).rank b < g₁.rank b := by
    refine rank_setJoin_lt (hbuilt.grows hgrow₁) hj hk.grows_alerted.label ?_
    simpa only [JoinPoint.ahead, JoinPoint.room, JoinPoint.alerted_merged, JoinPoint.alerted_seen]
      using hlower
  rcases hrank with rfl | hrank
  · exact hlt
  · exact hlt.trans hrank

/-- Marking a label changes nothing or makes the graph smaller. If it reports a change, the graph
got smaller. -/
theorem rank_marks {changed : Bool} (hbuilt : graph.Built code) (hkeeps : graph.Keeps b)
    (hgrow : graph.Grows g) (hf : f.Within b) (h : Marks oracle f l g g' changed) :
    (g' = g ∧ changed = false) ∨ g'.rank b < g.rank b := by
  cases h with
  | known j hj _ => exact Or.inl ⟨rfl, rfl⟩
  | unchanged j k hj hk _ =>
    exact Or.inr (rank_setJoin_lt (hbuilt.grows hgrow) hj hk.label (hk.lowers hf))
  | changed j k g' hj hk _ hfeed =>
    have hlt := rank_setJoin_lt (hbuilt.grows hgrow) hj hk.label (hk.lowers hf)
    rcases rank_feed hbuilt hkeeps (hgrow.trans (.setJoin hj hk.grows)) hf hfeed with rfl | hfed
    · exact Or.inr hlt
    · exact Or.inr (hfed.trans hlt)

/-- Marking several labels changes nothing or makes the graph smaller. Paths wait for the labels
that changed, so there are new ones only in the second case. -/
theorem rank_markTargets {labels : List Label} {work work' : List (Nat × Frame)}
    (hbuilt : graph.Built code) (hkeeps : graph.Keeps b) (hgrow : graph.Grows g) (hf : f.Within b)
    (h : markTargets oracle f labels g work = .ok (g', work')) :
    (g' = g ∧ work' = work) ∨ g'.rank b < g.rank b := by
  refine (markTargets_induction (motive := fun g₁ w =>
    graph.Grows g₁ ∧ ((g₁ = g ∧ w = work) ∨ g₁.rank b < g.rank b)) ?_ ?_ h
    ⟨hgrow, Or.inl ⟨rfl, rfl⟩⟩).2
  · rintro g₁ g₂ w l _ ⟨hgrow₁, hrank⟩ hmarks
    refine ⟨hgrow₁.trans hmarks.grows, ?_⟩
    rcases rank_marks hbuilt hkeeps hgrow₁ hf hmarks with ⟨rfl, _⟩ | hlt
    · exact hrank
    · rcases hrank with ⟨rfl, _⟩ | hrank
      · exact Or.inr hlt
      · exact Or.inr (hlt.trans hrank)
  · rintro g₁ g₂ w l k _ ⟨hgrow₁, hrank⟩ hmarks _
    refine ⟨hgrow₁.trans hmarks.grows, Or.inr ?_⟩
    -- a path is added only for a label that changed
    rcases rank_marks hbuilt hkeeps hgrow₁ hf hmarks with ⟨_, hcontra⟩ | hlt
    · cases hcontra
    · rcases hrank with ⟨rfl, _⟩ | hrank
      · exact hlt
      · exact hlt.trans hrank

end JoinGraph

/-! ## Machines

Three things can happen in a move. Something new arrives somewhere, and the graph gets smaller; or
something that waits is taken up, and nothing new waits; or the path goes on, and all else stays.
The order of the measure is the order of these. -/

namespace Machine

/-- The nodes left on the path, and one for the path itself. -/
def ahead (body : Body) (m : Machine) : Nat :=
  match m.path with
  | none => 0
  | some (p, _) => body.code.size + 1 - p

/-- The paths and handlers that wait to be taken up. -/
def waiting (m : Machine) : Nat := m.work.length + m.graph.total JoinPoint.waiting

def measure (body : Body) (b : Bound) (m : Machine) : (ℕ ×ₗ ℕ) ×ₗ (ℕ ×ₗ ℕ) :=
  toLex (m.graph.rank b, toLex (m.waiting, m.ahead body))

variable {body : Body} {b : Bound} {graph : JoinGraph} {m m' : Machine} {p : Nat} {f : Frame}

/-- A move makes a machine smaller that makes its graph smaller, or else leaves the graph and what
waits alone and goes on. -/
theorem measure_lt_of_path
    (hrank : (m'.graph = m.graph ∧ m'.work = m.work) ∨ m'.graph.rank b < m.graph.rank b)
    (hahead : m'.ahead body < m.ahead body) : m'.measure body b < m.measure body b := by
  rw [measure, measure, Prod.Lex.toLex_lt_toLex]
  show _ < _ ∨ _ = _ ∧ _ < _
  rcases hrank with ⟨hgraph, hwork⟩ | hlt
  · refine Or.inr ⟨by rw [hgraph], ?_⟩
    rw [Prod.Lex.toLex_lt_toLex]
    refine Or.inr ⟨?_, hahead⟩
    show m'.waiting = m.waiting
    rw [waiting, waiting, hgraph, hwork]
  · exact Or.inl hlt

/-- A move makes a machine smaller that takes up something that waited and leaves the join points
alone. -/
theorem measure_lt_of_waiting (hrank : m'.graph.rank b = m.graph.rank b)
    (hwaiting : m'.waiting < m.waiting) : m'.measure body b < m.measure body b := by
  rw [measure, measure, hrank, Prod.Lex.toLex_lt_toLex]
  refine Or.inr ⟨rfl, ?_⟩
  rw [Prod.Lex.toLex_lt_toLex]
  exact Or.inl hwaiting

/-- A path that goes on to the next node, or ends. -/
theorem ahead_lt {node : Node} (hnode : body.code.nodes[p]? = some node)
    (hpath : m.path = some (p, f)) (hpath' : m'.path = none ∨ ∃ f', m'.path = some (p + 1, f')) :
    m'.ahead body < m.ahead body := by
  have hp : p < body.code.size := (Array.getElem?_eq_some_iff.mp hnode).1
  unfold ahead
  rw [hpath]
  rcases hpath' with hpath' | ⟨f', hpath'⟩
  · rw [hpath']
    show 0 < body.code.size + 1 - p
    omega
  · rw [hpath']
    show body.code.size + 1 - (p + 1) < body.code.size + 1 - p
    omega

/-- Taking a mark away leaves one handler less waiting and all else alone. -/
theorem enter_measure_lt {j : JoinPoint} (hbuilt : m.graph.Built body.code)
    (hmem : j ∈ m.graph.joins) (hpending : j.isPending = true)
    (hgraph : m'.graph = m.graph.setJoin (j.withPending false)) (hwork : m'.work = m.work) :
    m'.measure body b < m.measure body b := by
  have hj := hbuilt.join?_of_mem hmem
  have htotal : ∀ φ : JoinPoint → Nat,
      m'.graph.total φ + φ j = m.graph.total φ + φ (j.withPending false) := by
    intro φ
    rw [hgraph]
    exact JoinGraph.total_setJoin φ hbuilt hj rfl
  -- what a join point has seen and merged is untouched, so the first components are the same
  have hrank : m'.graph.rank b = m.graph.rank b := by
    have hahead := htotal JoinPoint.ahead
    have hroom := htotal (JoinPoint.room b)
    have hsame : (j.withPending false).ahead = j.ahead := rfl
    have hsame' : (j.withPending false).room b = j.room b := rfl
    rw [JoinGraph.rank, JoinGraph.rank]
    congr 2
    · omega
    · omega
  refine measure_lt_of_waiting hrank ?_
  have hwaiting := htotal JoinPoint.waiting
  have hone : j.waiting = 1 := if_pos hpending
  have hzero : (j.withPending false).waiting = 0 := by
    cases hs : j.handler with
    | none => simp [JoinPoint.isPending, hs] at hpending
    | some s => simp [JoinPoint.waiting, JoinPoint.isPending_withPending hs]
  rw [waiting, waiting, hwork]
  omega

/-- Every move makes a machine smaller, as long as its frames keep to a bound. -/
theorem Moves.measure_lt (hbuilt : graph.Built body.code) (hkeeps : graph.Keeps b)
    {P : Label → JoinPoint → Prop} (hm : m.Respects graph (fun _ f => f.Within b) P)
    (hexecute : ∀ (p : Nat) (br : Branch) (f f' : Frame),
      body.code.nodes[p]? = some (.branch br) → f.Within b →
        f.executeBranch body.method.descriptor.result br = .ok f' → f'.Within b)
    (hmove : Moves body m m') : m'.measure body b < m.measure body b := by
  cases hmove with
  | take p f work hpath hwork =>
    -- the path gets longer, but one fewer waits
    refine measure_lt_of_waiting rfl ?_
    show work.length + m.graph.total JoinPoint.waiting
      < m.work.length + m.graph.total JoinPoint.waiting
    rw [hwork, List.length_cons]
    omega
  | enter j f hpath hwork hmem hpending hmerged =>
    exact enter_measure_lt (hbuilt.grows hm.grows) hmem hpending rfl rfl
  | label p f l hpath hnode hjoin =>
    exact measure_lt_of_path (Or.inl ⟨rfl, rfl⟩) (ahead_lt hnode hpath (Or.inr ⟨f, rfl⟩))
  | frame p f s hpath hnode =>
    exact measure_lt_of_path (Or.inl ⟨rfl, rfl⟩) (ahead_lt hnode hpath (Or.inr ⟨f, rfl⟩))
  | halt p f l g hpath hnode hjoin hmark =>
    have hrank := JoinGraph.rank_marks hbuilt hkeeps hm.grows (hm.path p f hpath) hmark
    refine measure_lt_of_path ?_ (ahead_lt hnode hpath (Or.inl rfl))
    exact hrank.imp_left fun hsame => ⟨hsame.1, rfl⟩
  | join p f l g k merged hpath hnode hjoin hmark hk hmerged =>
    have hrank := JoinGraph.rank_marks hbuilt hkeeps hm.grows (hm.path p f hpath) hmark
    refine measure_lt_of_path ?_ (ahead_lt hnode hpath (Or.inr ⟨merged, rfl⟩))
    exact hrank.imp_left fun hsame => ⟨hsame.1, rfl⟩
  | insn p f i g f' hpath hnode hfeed hexec =>
    have hrank := JoinGraph.rank_feed hbuilt hkeeps hm.grows (hm.path p f hpath) hfeed
    refine measure_lt_of_path ?_ (ahead_lt hnode hpath (Or.inr ⟨f', rfl⟩))
    exact hrank.imp_left fun hsame => ⟨hsame, rfl⟩
  | branch p f br g g' f' work hpath hnode hfeed hexec hmark =>
    have hf := hm.path p f hpath
    -- the handlers are fed, then the targets marked; if neither adds anything, all is as before
    have hrank : (g' = m.graph ∧ work = m.work) ∨ g'.rank b < m.graph.rank b := by
      have hfed := JoinGraph.rank_feed hbuilt hkeeps hm.grows hf hfeed
      have hmarked := JoinGraph.rank_markTargets hbuilt hkeeps
        (hm.grows.trans (JoinGraph.grows_feed hfeed)) (hexecute p br f f' hnode hf hexec) hmark
      rcases hfed with rfl | hfed
      · exact hmarked
      · rcases hmarked with ⟨rfl, _⟩ | hmarked
        · exact Or.inr hfed
        · exact Or.inr (hmarked.trans hfed)
    cases hfall : br.fallsThrough with
    | true => exact measure_lt_of_path hrank (ahead_lt hnode hpath (Or.inr ⟨f', rfl⟩))
    | false => exact measure_lt_of_path hrank (ahead_lt hnode hpath (Or.inl rfl))

/-- A machine whose moves all make it smaller stops. -/
theorem exists_run {Inv : Machine → Prop} (hrec : body.recovery = none)
    (hmove : ∀ m m', Inv m → Moves body m m' → Inv m' ∧ m'.measure body b < m.measure body b)
    (hm : Inv m) : ∃ fuel last, run body fuel m = some last := by
  -- the measure is well founded, so the steps cannot go on forever
  induction hmeasure : m.measure body b using WellFoundedLT.induction generalizing m with
  | ind bound ih =>
    subst hmeasure
    cases hstep : m.step body with
    | running m' =>
      obtain ⟨hm', hlt⟩ := hmove m m' hm (moves_of_step hrec hstep)
      obtain ⟨fuel, last, hrun⟩ := ih _ hlt hm' rfl
      refine ⟨fuel + 1, last, ?_⟩
      rw [run, hstep]
      exact hrun
    | finished m' => exact ⟨1, _, by rw [run, hstep]⟩
    | failed m' e => exact ⟨1, _, by rw [run, hstep]⟩

end Machine

end JvmFrames
