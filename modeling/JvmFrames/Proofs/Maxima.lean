import JvmFrames.Proofs.StackDepth
import Mathlib.Order.Bounds.Basic

/-!
# The maxima are exact

Every frame of a successful run is at a position that control can get to, with the depth of the
position, and its locals are no longer than at the start or than a store has made them
(`Body.Sized`). So the maxima are not too large, and since the run has been everywhere, they are not
too small.

Which handlers are entered is known only at the end of the run. The invariant therefore speaks of
the final state (`Machine.SizedUpTo`).
-/

namespace JvmFrames

/-! ## The frames of the run

A frame is sized if it is in a place that control can get to, has the depth of this place, and has
locals that some instruction accounts for. The scheme for invariants takes care of the run. -/

namespace Body

variable {body : Body} {g : JoinGraph} {entered : Label → Prop} {d : Nat → Nat}

/-- Words that the locals have at the start, or that a store which control can get to needs. -/
def localExtents (body : Body) (g : JoinGraph) (entered : Label → Prop) : Set Nat :=
  { n | n = (Frame.entry body.method).locals.words
    ∨ ∃ p i, body.Reachable g entered p ∧ body.code.nodes[p]? = some (.insn i)
      ∧ i.reach? = some n }

/-- Words on the stack before and after each node that control can get to. -/
def stackExtents (body : Body) (g : JoinGraph) (entered : Label → Prop) (d : Nat → Nat) : Set Nat :=
  { n | ∃ p, body.Reachable g entered p
    ∧ (n = d p ∨ ∃ node, body.code.nodes[p]? = some node ∧ (n : Int) = node.depthAfter (d p)) }

/-- A frame where control can get to, with the depth of the position and no more locals than there
is a reason for. -/
structure Sized (body : Body) (g : JoinGraph) (entered : Label → Prop) (d : Nat → Nat) (p : Nat)
    (f : Frame) : Prop where
  reachable : body.Reachable g entered p
  stack : f.stackWords = d p
  locals : ∃ n ∈ body.localExtents g entered, f.locals.words ≤ n

namespace Sized

variable {p q : Nat} {f f' : Frame} {node : Node} {l : Label}

/-- Where control goes on with a frame that has the effect of the node. -/
theorem goes (hd : body.Depths g entered d) (h : body.Sized g entered d p f)
    (hnode : body.code.nodes[p]? = some node) (hgoes : body.GoesTo p q)
    (hstack : (f'.stackWords : Int) = f.stackWords + node.effect)
    (hlocals : ∃ n ∈ body.localExtents g entered, f'.locals.words ≤ n) :
    body.Sized g entered d q f' := by
  have hnext := hd.next p node q h.reachable hnode hgoes
  have hdepth := h.stack
  exact ⟨.next p q h.reachable hgoes, by omega, hlocals⟩

/-- What is caught has one word on its stack, as every handler does. -/
theorem caught (hd : body.Depths g entered d) (h : body.Sized g entered d p f)
    (hthrows : body.Throws g entered p q) (t : RefType) : body.Sized g entered d q (f.caught t) :=
  ⟨.caught p q h.reachable hthrows, (hd.caught p q h.reachable hthrows).symm, h.locals⟩

/-- An instruction changes the depth by its effect, and the locals only as far as it reaches. -/
theorem execute (hd : body.Depths g entered d) (h : body.Sized g entered d p f) {i : Instruction}
    (hnode : body.code.nodes[p]? = some (.insn i)) {this : ClassName} {site : Option Label}
    (hexec : f.execute this site i = .ok f') : body.Sized g entered d (p + 1) f' := by
  refine h.goes hd hnode (.fall _ hnode rfl) (Frame.stackWords_execute hexec) ?_
  obtain ⟨n, hn, hle⟩ := h.locals
  have hwords := Frame.words_execute hexec
  cases hreach : i.reach? with
  | none =>
    rw [hreach] at hwords
    exact ⟨n, hn, hwords.trans_le hle⟩
  | some k =>
    rw [hreach] at hwords
    have hwords : f'.locals.words = max f.locals.words k := hwords
    -- whichever is farther accounts for the locals that are left
    by_cases hk : k ≤ n
    · exact ⟨n, hn, by omega⟩
    · exact ⟨k, Or.inr ⟨p, i, h.reachable, hnode, hreach⟩, by omega⟩

/-- A branch that control goes on from. -/
theorem executeBranch (hd : body.Depths g entered d) (h : body.Sized g entered d p f) {b : Branch}
    (hnode : body.code.nodes[p]? = some (.branch b)) {result : Option FieldType}
    (hexec : f.executeBranch result b = .ok f') (hgoes : body.GoesTo p q) (hb : b ≠ .throw) :
    body.Sized g entered d q f' := by
  have hthrow : Node.branch b ≠ .branch .throw := by
    intro heq
    cases heq
    exact hb rfl
  refine h.goes hd hnode hgoes ?_ ?_
  · rw [Frame.stackWords_executeBranch hexec, Node.depthAfter_of_ne_throw hthrow]
  · rw [Frame.words_executeBranch hexec]
    exact h.locals

/-- A merged frame has the stack of both and no more locals than either. -/
theorem merge {oracle : Oracle} {k m : Frame} (h : body.Sized g entered d p f)
    (hmerge : f.merge oracle k = .ok m) : body.Sized g entered d p m := by
  obtain ⟨_, _, hstack, _⟩ := Frame.stack_of_merge hmerge
  have hwords := Frame.words_of_merge hmerge
  obtain ⟨n, hn, hle⟩ := h.locals
  exact ⟨h.reachable, hstack.trans h.stack, n, hn, by omega⟩

end Sized

/-- A frame is sized where a label is placed. -/
def SizedAt (body : Body) (g : JoinGraph) (entered : Label → Prop) (d : Nat → Nat) (l : Label)
    (f : Frame) : Prop :=
  ∀ p : Nat, body.code.nodes[p]? = some (.label l) → body.Sized g entered d p f

/-- In a run in which exceptions get only to handlers that are entered, all frames are sized. -/
theorem flow_sized {V : Label → Frame → Prop} (hbuilt : g.Built body.code) (hfresh : g.Fresh)
    (hd : body.Depths g entered d)
    (hV : ∀ l t f, g.catchType? l = some t → V l (Frame.caught f t) → entered l) :
    body.FlowWithin g V (body.Sized g entered d) (body.SizedAt g entered d)
      (fun l j => ∀ f, j.merged = some f → body.SizedAt g entered d l f) where
  built := hbuilt
  fresh := fun l j hj f hf => by
    rw [(hfresh l j hj).1] at hf
    cases hf
  entry := ⟨.start, hd.start.symm, _, Or.inl rfl, Nat.le_refl _⟩
  pass := fun p l f hnode _ h => h.goes hd hnode (.fall _ hnode rfl) (Int.add_zero _).symm h.locals
  -- a label is placed once, so this is the only place
  arrive := fun p l f hnode _ h q hq => by
    have hposition := (hbuilt.placed l p).mpr hnode
    rw [(hbuilt.placed l q).mpr hq] at hposition
    cases hposition
    exact h
  frame := fun p s f hnode h => h.goes hd hnode (.fall _ hnode rfl) (Int.add_zero _).symm h.locals
  insn := fun p i f f' hnode h hexec => h.execute hd hnode hexec
  branch := fun p b f f' hnode h hexec => by
    refine ⟨fun t ht q hq => ?_, fun hfall => ?_⟩
    · exact h.executeBranch hd hnode hexec (.jump b t q hnode ht hq) (by rintro rfl; cases ht)
    · exact h.executeBranch hd hnode hexec (.fall _ hnode hfall) (by rintro rfl; cases hfall)
  caught := fun p node f l t hnode hinsn h hl ht q hq =>
    h.caught hd (.insn node l q hnode hinsn hl hq) t
  -- only handlers that are entered at the end of the run count
  caughtJoin := fun p l f l' t hnode hjoin h hl ht hseen q hq =>
    (h p hnode).caught hd (.label l l' q hnode hjoin hl (Or.inr (hV l' t f ht hseen)) hq) t
  receive := fun l j k f hj hf hk m hm => by
    cases hk with
    | first _ _ =>
      cases hm
      exact hf
    | joined current _ _ hcurrent hmerge =>
      cases hm
      exact fun p hp => (hj current hcurrent p hp).merge hmerge
  pending := fun _ _ _ hj => hj
  resume := fun p l j f hnode _ hj hf =>
    (hj f hf p hnode).goes hd hnode (.fall _ hnode rfl) (Int.add_zero _).symm (hj f hf p hnode).locals

end Body

/-! ## The maxima

Each maximum is bounded by an extent throughout the run. At the end it is at least as large as all
extents, for control has been wherever it can get to. -/

namespace Machine

variable {body : Body} {graph : JoinGraph} {m m' final : Machine} {d : Nat → Nat}

/-- A move covers the frame of the path it leads to, or the frame a branch leaves, or none. -/
theorem Moves.maxima (hmove : m.Moves body m') : m'.maxima = m.maxima
    ∨ (∃ p f, m'.path = some (p, f) ∧ m'.maxima = m.maxima.cover f)
    ∨ ∃ p f b f', m.path = some (p, f) ∧ body.code.nodes[p]? = some (.branch b)
      ∧ f.executeBranch body.method.descriptor.result b = .ok f'
      ∧ m'.maxima = m.maxima.cover f' := by
  cases hmove with
  | take p f work _ _ => exact Or.inr (Or.inl ⟨p, f, rfl, rfl⟩)
  | enter j f _ _ _ _ _ => exact Or.inr (Or.inl ⟨j.position + 1, f, rfl, rfl⟩)
  -- passing a node that is no instruction covers nothing new
  | label _ _ _ _ _ _ => exact Or.inl rfl
  | frame _ _ _ _ _ => exact Or.inl rfl
  | halt _ _ _ _ _ _ _ _ => exact Or.inl rfl
  | join _ _ _ _ _ _ _ _ _ _ _ _ => exact Or.inl rfl
  | insn p f i g f' _ _ _ _ => exact Or.inr (Or.inl ⟨p + 1, f', rfl, rfl⟩)
  | branch p f b g g' f' work hpath hnode _ hexec _ =>
    refine Or.inr (Or.inr ⟨p, f, b, f', hpath, hnode, hexec, ?_⟩)
    cases b.fallsThrough with
    | true => rfl
    | false => rfl

/-- The maxima are no greater than there is a reason for. -/
structure Justified (body : Body) (g : JoinGraph) (entered : Label → Prop) (d : Nat → Nat)
    (limit : Maxima) : Prop where
  stack : ∃ n ∈ body.stackExtents g entered d, limit.stack ≤ n
  locals : ∃ n ∈ body.localExtents g entered, limit.locals ≤ n

/-- Covering a frame that is accounted for leaves the maxima accounted for. -/
theorem Justified.cover {g : JoinGraph} {entered : Label → Prop} {limit : Maxima} {f : Frame}
    (h : Justified body g entered d limit)
    (hstack : ∃ n ∈ body.stackExtents g entered d, f.stackWords ≤ n)
    (hlocals : ∃ n ∈ body.localExtents g entered, f.locals.words ≤ n) :
    Justified body g entered d (limit.cover f) := by
  -- the greater of two numbers below members of a set is below one of the two
  have hmax : ∀ {s : Set Nat} {a b : Nat}, (∃ n ∈ s, a ≤ n) → (∃ n ∈ s, b ≤ n) →
      ∃ n ∈ s, max a b ≤ n := by
    rintro s a b ⟨n, hn, ha⟩ ⟨k, hk, hb⟩
    rcases Nat.le_total a b with hab | hab
    · exact ⟨k, hk, by omega⟩
    · exact ⟨n, hn, by omega⟩
  exact ⟨hmax h.stack hstack, hmax h.locals hlocals⟩

/-- A move covers only frames that are accounted for. -/
theorem Justified.moves {g : JoinGraph} {entered : Label → Prop} {P : Label → JoinPoint → Prop}
    (h : Justified body g entered d m.maxima) (hm : m.Respects g (body.Sized g entered d) P)
    (hm' : m'.Respects g (body.Sized g entered d) P) (hmove : m.Moves body m') :
    Justified body g entered d m'.maxima := by
  rcases hmove.maxima with hsame | ⟨p, f, hpath, hcover⟩ | ⟨p, f, b, f', hpath, hnode, hexec, hcover⟩
  · rw [hsame]
    exact h
  · rw [hcover]
    have hf := hm'.path p f hpath
    exact h.cover ⟨d p, ⟨p, hf.reachable, Or.inl rfl⟩, hf.stack.le⟩ hf.locals
  · rw [hcover]
    -- the frame that a branch leaves has no position of its own; its depth is one behind a node
    have hf := hm.path p f hpath
    have hstack := Frame.stackWords_executeBranch hexec
    rw [hf.stack] at hstack
    refine h.cover ⟨_, ⟨p, hf.reachable, Or.inr ⟨_, hnode, hstack⟩⟩, Nat.le_refl _⟩ ?_
    rw [Frame.words_executeBranch hexec]
    exact hf.locals

theorem grows_of_run {fuel : Nat} (hrec : body.recovery = none) (hbuilt : m.graph.Built body.code)
    (hrun : run body fuel m = some (m', none)) : m.graph.Grows m'.graph := by
  have hmoves : ∀ k k', m.graph.Grows k.graph → Moves body k k' → m.graph.Grows k'.graph :=
    fun k k' hk hmove => hk.trans (hmove.grows (hbuilt.grows hk))
  exact (finished_invariant hrec hmoves hrun (.refl _)).1

/-- The sizes of a state of the run, which its run to the end depends on: whether a handler is
entered is known only then. -/
def SizedUpTo (body : Body) (graph : JoinGraph) (m final : Machine) : Prop :=
  graph.Grows m.graph ∧ (m.graph.Grows final.graph →
    m.Respects graph (body.Sized graph final.graph.Entered (final.graph.depthAt body.code))
        (fun l j => ∀ f, j.merged = some f →
          body.SizedAt graph final.graph.Entered (final.graph.depthAt body.code) l f)
      ∧ Justified body graph final.graph.Entered (final.graph.depthAt body.code) m.maxima)

namespace Levels

/-- In a finished run, exceptions get to handlers that are entered at its end. -/
theorem flow_sized (h : final.Levels body graph) (hfresh : graph.Fresh) :
    body.FlowWithin graph final.graph.Seen
      (body.Sized graph final.graph.Entered (final.graph.depthAt body.code))
      (body.SizedAt graph final.graph.Entered (final.graph.depthAt body.code))
      (fun l j => ∀ f, j.merged = some f →
        body.SizedAt graph final.graph.Entered (final.graph.depthAt body.code) l f) :=
  Body.flow_sized h.built hfresh h.depths fun l t f ht hseen =>
    ⟨t, f, (h.grows.catchType?_eq l).trans ht, hseen⟩

theorem sizedUpTo_start (h : final.Levels body graph) (hfresh : graph.Fresh) :
    (start body graph).SizedUpTo body graph final := by
  refine ⟨.refl graph, fun _ => ⟨(h.flow_sized hfresh).start, ?_, ?_⟩⟩
  · exact ⟨0, ⟨0, .start, Or.inl h.depths.start.symm⟩, Nat.le_refl 0⟩
  · exact ⟨_, Or.inl rfl, Nat.zero_le _⟩

/-- Every move keeps the sizes, as seen from the end of the run. -/
theorem sizedUpTo_moves (h : final.Levels body graph) (hfresh : graph.Fresh)
    (hm : m.SizedUpTo body graph final) (hmove : m.Moves body m') :
    m'.SizedUpTo body graph final := by
  obtain ⟨hgrow, hsized⟩ := hm
  have hgrow' := hmove.grows (h.built.grows hgrow)
  refine ⟨hgrow.trans hgrow', fun hfinal => ?_⟩
  obtain ⟨hm, hjustified⟩ := hsized (hgrow'.trans hfinal)
  have hm' := (h.flow_sized hfresh).moves hm hmove fun _ _ hseen => hfinal.seen hseen
  exact ⟨hm', hjustified.moves hm hm' hmove⟩

/-- The maximum is at least the depth wherever the run has been. -/
theorem depthAt_le (h : final.Levels body graph) {p : Nat} (hp : final.Meets body p) :
    final.graph.depthAt body.code p ≤ final.maxima.stack := by
  rcases hp with ⟨l, f, hnode, hseen⟩ | ⟨f, hf, hwords⟩
  · obtain ⟨merged, hmerged, hwords⟩ := h.covered_behind hnode hseen
    rw [← hwords]
    exact hmerged.fits.2
  · rw [← hwords]
    exact hf.fits.2

/-- The maximum of the stack is at least every extent of it. -/
theorem stack_le (h : final.Levels body graph) {n : Nat}
    (hn : n ∈ body.stackExtents graph final.graph.Entered (final.graph.depthAt body.code)) :
    n ≤ final.maxima.stack := by
  obtain ⟨p, hp, hn⟩ := hn
  have hmeets := h.meets hp
  have hdepth := h.depthAt_le hmeets
  -- an extent is the depth before a node or the depth after it
  rcases hn with rfl | ⟨node, hnode, hn⟩
  · exact hdepth
  · cases node with
    | label l =>
      have hn : (n : Int) = final.graph.depthAt body.code p + 0 := hn
      omega
    | frame s =>
      have hn : (n : Int) = final.graph.depthAt body.code p + 0 := hn
      omega
    | insn i =>
      obtain ⟨f, hf, hwords⟩ := hmeets.exists_covered hnode rfl
      obtain ⟨f', hexec, hf'⟩ := hf.at_insn hnode
      have hwords' := Frame.stackWords_execute hexec
      have hn : (n : Int) = final.graph.depthAt body.code p + i.effect := hn
      have hfits := hf'.fits.2
      omega
    | branch b =>
      obtain ⟨f, hf, hwords⟩ := hmeets.exists_covered hnode rfl
      obtain ⟨f', hexec, hfits, _⟩ := hf.at_branch hnode
      have hwords' := Frame.stackWords_executeBranch hexec
      rw [hwords, ← hn] at hwords'
      have hfits := hfits.2
      omega

/-- The maximum of the locals is at least every extent of them. -/
theorem locals_le (h : final.Levels body graph) {n : Nat}
    (hn : n ∈ body.localExtents graph final.graph.Entered) : n ≤ final.maxima.locals := by
  rcases hn with rfl | ⟨p, i, hp, hnode, hreach⟩
  · exact (h.covered _ .entry).fits.1
  · obtain ⟨f, hf, _⟩ := (h.meets hp).exists_covered hnode rfl
    obtain ⟨f', hexec, hf'⟩ := hf.at_insn hnode
    have hwords := Frame.words_execute hexec
    rw [hreach] at hwords
    have hwords : f'.locals.words = max f.locals.words n := hwords
    have hfits := hf'.fits.1
    omega

end Levels

end Machine

/-! ## Successful analyses

What has been shown of the run is carried over to the result, whose maxima are those of the run. -/

/-- The depths of a run: there is one for each position that control can get to, and every frame on
a path of the run has it. -/
structure Machine.RunsAt (body : Body) (graph : JoinGraph) (final : Machine) (d : Nat → Nat) :
    Prop where
  depths : body.Depths graph final.graph.Entered d
  unique : ∀ d', body.Depths graph final.graph.Entered d' →
    ∀ p, body.Reachable graph final.graph.Entered p → d' p = d p
  frames : ∀ n m p f, (Machine.start body graph).after body n = some m → m.path = some (p, f) →
    body.Reachable graph final.graph.Entered p ∧ f.stackWords = d p

namespace Machine.Levels

variable {body : Body} {graph : JoinGraph} {final : Machine} {fuel : Nat}

/-- The depths that the run has found are the only ones there are. -/
theorem runsAt (h : final.Levels body graph) (hfresh : graph.Fresh) (hrec : body.recovery = none)
    (hrun : run body fuel (.start body graph) = some (final, none)) :
    final.RunsAt body graph (final.graph.depthAt body.code) := by
  refine ⟨h.depths, fun d' hd' p hp => h.depths.unique hd' hp, fun n m p f hafter hpath => ?_⟩
  obtain ⟨hgrow, hsized⟩ := after_invariant hrec (fun _ _ => h.sizedUpTo_moves hfresh) hafter
    (h.sizedUpTo_start hfresh)
  have hrest := run_of_run_of_after hafter hrun
  have hf := (hsized (grows_of_run hrec (h.built.grows hgrow) hrest)).1.path p f hpath
  exact ⟨hf.reachable, hf.stack⟩

/-- The maxima of a finished run are reached, and not exceeded. -/
theorem isGreatest (h : final.Levels body graph) (hfresh : graph.Fresh)
    (hrec : body.recovery = none)
    (hrun : run body fuel (.start body graph) = some (final, none)) :
    IsGreatest (body.stackExtents graph final.graph.Entered (final.graph.depthAt body.code))
        final.maxima.stack
      ∧ IsGreatest (body.localExtents graph final.graph.Entered) final.maxima.locals := by
  obtain ⟨⟨_, hsized⟩, _⟩ := finished_invariant hrec (fun _ _ => h.sizedUpTo_moves hfresh) hrun
    (h.sizedUpTo_start hfresh)
  obtain ⟨⟨n, hn, hstack⟩, ⟨k, hk, hlocals⟩⟩ := (hsized (.refl _)).2
  rw [Nat.le_antisymm hstack (h.stack_le hn), Nat.le_antisymm hlocals (h.locals_le hk)]
  refine ⟨⟨hn, fun i hi => ?_⟩, ⟨hk, fun i hi => ?_⟩⟩
  · exact (h.stack_le hi).trans hstack
  · exact (h.locals_le hi).trans hlocals

end Machine.Levels

namespace Analysis

variable {fuel : Nat} {oracle : Oracle} {settings : Settings} {method : Method} {code : Code}
variable {ranges : List ProtectedRange} {report : Report} {analysis : Analysis}

/-- After a successful analysis, each position that control can get to has one stack depth, given by
the effects of the nodes, and every frame of the run has it. The reported maxima are the greatest
depth before or after a node and the farthest extent of the locals. Here control gets from the label
of a handler that exceptions enter only into those handlers that exceptions enter as well. That is
no restriction if every handler that protects such a label also protects an instruction that control
gets to from there. -/
theorem depth_fixed_and_maxima_exact (hrec : settings.recovery = none)
    (h : analyze fuel oracle settings method code ranges = some report)
    (hok : report.result = .ok analysis) :
    ∃ graph m d, JoinGraph.build oracle (prepare settings code) ranges = .ok graph
      ∧ Machine.run (bodyOf oracle settings method code) fuel
          (.start (bodyOf oracle settings method code) graph) = some (m, none)
      ∧ m.RunsAt (bodyOf oracle settings method code) graph d
      ∧ IsGreatest ((bodyOf oracle settings method code).stackExtents graph m.graph.Entered d)
          analysis.maxStack.toNat
      ∧ IsGreatest ((bodyOf oracle settings method code).localExtents graph m.graph.Entered)
          analysis.maxLocals.toNat
      ∧ ((∀ (p : Nat) l l', (prepare settings code).nodes[p]? = some (.label l) →
            m.graph.Entered l → l' ∈ graph.protectors p →
            ∃ q node, Relation.ReflTransGen (bodyOf oracle settings method code).GoesTo p q
              ∧ (prepare settings code).nodes[q]? = some node ∧ node.isInstruction = true
              ∧ l' ∈ graph.protectors q) →
          ∀ p, (bodyOf oracle settings method code).Reachable graph (fun _ => True) p →
            (bodyOf oracle settings method code).Reachable graph m.graph.Entered p) := by
  obtain ⟨graph, m, hbuild, hrun, hstack, hlocals⟩ := run_of_ok h hok
  obtain ⟨_, hfresh⟩ := JoinGraph.built_of_build hbuild
  have hrec' : (bodyOf oracle settings method code).recovery = none := hrec
  have hm := Machine.levels_of_run hrec' hbuild hrun
  -- the maxima of the machine fit sixteen bits, so they are reported as they are
  obtain ⟨hgreatest, hgreatest'⟩ := hm.isGreatest hfresh hrec' hrun
  refine ⟨graph, m, _, hbuild, hrun, hm.runsAt hfresh hrec' hrun, ?_, ?_, ?_⟩
  · rw [hstack]
    exact hgreatest
  · rw [hlocals]
    exact hgreatest'
  · intro hshared p hp
    exact hm.reachable_of_shared hshared hp

/-- The depths of the countdown. -/
theorem depth_fixed_and_maxima_exact_countdown :
    ∃ report analysis, analyze 80 Hierarchy.javaLang.common .plain Countdown.method Countdown.code
        Countdown.ranges = some report
      ∧ report.result = .ok analysis
      ∧ ∃ graph m d, JoinGraph.build Hierarchy.javaLang.common (prepare .plain Countdown.code)
          Countdown.ranges = .ok graph
        ∧ Machine.run (bodyOf Hierarchy.javaLang.common .plain Countdown.method Countdown.code) 80
            (.start (bodyOf Hierarchy.javaLang.common .plain Countdown.method Countdown.code) graph)
            = some (m, none)
        ∧ m.RunsAt (bodyOf Hierarchy.javaLang.common .plain Countdown.method Countdown.code) graph d
        ∧ IsGreatest ((bodyOf Hierarchy.javaLang.common .plain Countdown.method
            Countdown.code).stackExtents graph m.graph.Entered d) analysis.maxStack.toNat
        ∧ IsGreatest ((bodyOf Hierarchy.javaLang.common .plain Countdown.method
            Countdown.code).localExtents graph m.graph.Entered) analysis.maxLocals.toNat := by
  obtain ⟨report, analysis, h, hok⟩ := Countdown.analyze_ok
  obtain ⟨graph, m, d, hbuild, hrun, hruns, hstack, hlocals, _⟩ :=
    depth_fixed_and_maxima_exact rfl h hok
  exact ⟨report, analysis, h, hok, graph, m, d, hbuild, hrun, hruns, hstack, hlocals⟩

end Analysis

/-! ## A handler that is never entered

A label does not raise exceptions, but passes frames on to the handlers that protect it. Only labels
that are jumped to or fallen into do so. -/

namespace Lookout

/-- A static method without parameters. -/
def method : Method := ⟨.object, .init, ⟨[], none⟩, .of [.STATIC]⟩

/-- Label 2 is a handler for the start of the body, and label 4 one that protects nothing but
label 2. -/
def code : Code where
  nodes := #[
    .label ⟨0⟩,
    .insn .nop,
    .label ⟨1⟩,
    .branch .returnVoid,
    .label ⟨2⟩,
    .label ⟨3⟩,
    .branch .throw,
    .label ⟨4⟩,
    .insn (.const .int0),
    .insn (.const .int0),
    .insn (.shuffle .pop2),
    .branch .throw]
  nextLabel := 5

/-- The first handler protects the start of the body, and the second one protects the first. -/
def ranges : List ProtectedRange := [⟨⟨0⟩, ⟨1⟩, ⟨2⟩, none⟩, ⟨⟨2⟩, ⟨3⟩, ⟨4⟩, none⟩]

def body : Body := Analysis.bodyOf Hierarchy.javaLang.common .plain method code

variable {graph : JoinGraph}

theorem exists_graph : ∃ graph,
    JoinGraph.build Hierarchy.javaLang.common (Analysis.prepare .plain code) ranges = .ok graph
      ∧ ⟨2⟩ ∈ graph.protectors 1 ∧ graph.isJoin ⟨2⟩ = true ∧ ⟨4⟩ ∈ graph.protectors 4 :=
  ⟨_, rfl, by decide, by decide, by decide⟩

theorem analyze_ok : ∃ report analysis,
    analyze 40 Hierarchy.javaLang.common .plain method code ranges = some report
      ∧ report.result = .ok analysis ∧ analysis.maxStack.toNat = 1 :=
  ⟨_, _, rfl, rfl, rfl⟩

/-- If exceptions counted at every join label, the handler at label 4 would be in reach. -/
theorem throws_from_handler (h₂ : ⟨2⟩ ∈ graph.protectors 1) (hjoin : graph.isJoin ⟨2⟩ = true)
    (h₄ : ⟨4⟩ ∈ graph.protectors 4) : body.Reachable graph (fun _ => True) 4
      ∧ body.Throws graph (fun _ => True) 4 7 := by
  have hnop : body.Reachable graph (fun _ => True) 1 := .next 0 1 .start (.fall _ rfl rfl)
  exact ⟨.caught 1 4 hnop (.insn _ ⟨2⟩ 4 rfl rfl h₂ rfl),
    .label ⟨2⟩ ⟨4⟩ 7 rfl hjoin h₄ (Or.inr trivial) rfl⟩

end Lookout

namespace Analysis

/-- Exceptions at join labels do not count as those at instructions do. A handler that protects only
the label of another one, which is entered by an exception, is never executed, and the maximum is
less than the depth there. -/
theorem handler_of_handler_not_counted : ∃ report analysis graph,
    analyze 40 Hierarchy.javaLang.common .plain Lookout.method Lookout.code Lookout.ranges
        = some report
      ∧ report.result = .ok analysis
      ∧ JoinGraph.build Hierarchy.javaLang.common (prepare .plain Lookout.code) Lookout.ranges
        = .ok graph
      ∧ ∃ p, Lookout.body.Reachable graph (fun _ => True) p
        ∧ ∀ d, Lookout.body.Depths graph (fun _ => True) d → analysis.maxStack.toNat < d p := by
  obtain ⟨report, analysis, h, hok, hstack⟩ := Lookout.analyze_ok
  obtain ⟨graph, hbuild, h₂, hjoin, h₄⟩ := Lookout.exists_graph
  obtain ⟨hreach, hthrows⟩ := Lookout.throws_from_handler h₂ hjoin h₄
  -- control gets from the label of the one handler into the other, which goes on to push
  have h₇ : Lookout.body.Reachable graph (fun _ => True) 7 := .caught 4 7 hreach hthrows
  have h₈ : Lookout.body.Reachable graph (fun _ => True) 8 := .next 7 8 h₇ (.fall _ rfl rfl)
  have h₉ : Lookout.body.Reachable graph (fun _ => True) 9 := .next 8 9 h₈ (.fall _ rfl rfl)
  refine ⟨report, analysis, graph, h, hok, hbuild, 9, h₉, fun d hd => ?_⟩
  have hd₇ : d 7 = 1 := hd.caught 4 7 hreach hthrows
  have hd₈ : (d 8 : Int) = d 7 + 0 := hd.next 7 _ 8 h₇ rfl (.fall _ rfl rfl)
  have hd₉ : (d 9 : Int) = d 8 + 1 := hd.next 8 _ 9 h₈ rfl (.fall _ rfl rfl)
  omega

end Analysis

end JvmFrames
