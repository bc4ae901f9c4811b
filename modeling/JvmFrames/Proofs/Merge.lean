import Mathlib.Data.List.Forall2
import JvmFrames.Proofs.Locals

/-!
# Merging, value by value and word by word

The equations of `VType.merge`, and what merging two frames does. A merge of locals works on each
pair of words alone (`cells_mergeLocals`), so a usable value survives at a word exactly if both
lists have a value of the same width there and the two merge to something usable
(`usableAt_mergeLocals_iff`). A merge of frames succeeds exactly if the stacks match value by value
(`Frame.merge_eq_ok_iff`).
-/

namespace JvmFrames

namespace VType

variable {oracle : Oracle}

/-! ## Values

One equation for each pair of kinds that can be merged. All other pairs give `top`. -/

@[simp] theorem merge_self (v : VType) : merge oracle v v = v := by
  cases v <;> simp [merge, meet, Meeting.resolve]

@[simp] theorem merge_null_object (t : RefType) : merge oracle .null (.object t) = .object t := by
  simp [merge, meet, Meeting.resolve]

@[simp] theorem merge_object_null (t : RefType) : merge oracle (.object t) .null = .object t := by
  simp [merge, meet, Meeting.resolve]

/-- Objects merge to what their types have in common, and the oracle is not asked for equal ones. -/
theorem merge_object_object (a b : RefType) :
    merge oracle (.object a) (.object b) = .object (if a = b then a else oracle a b) := by
  by_cases h : a = b
  · subst h
    simp
  · simp [merge, meet, Meeting.resolve, h]

theorem merge_uninitialized_object (u : Allocation) (c : ClassName) :
    merge oracle (.uninitialized u) (.object (.object c))
      = if u.className = c then .uninitialized u else .top := by
  simp only [merge, meet, reduceCtorEq, if_false]
  split <;> rfl

theorem merge_object_uninitialized (c : ClassName) (u : Allocation) :
    merge oracle (.object (.object c)) (.uninitialized u)
      = if u.className = c then .uninitialized u else .top := by
  simp only [merge, meet, reduceCtorEq, if_false]
  split <;> rfl

/-- An allocation comes out where it meets itself or an object of its class. -/
theorem merge_eq_uninitialized_iff {v w : VType} {u : Allocation} :
    merge oracle v w = .uninitialized u
      ↔ (v = .uninitialized u ∧ (w = .uninitialized u ∨ w = .object (.object u.className)))
        ∨ (v = .object (.object u.className) ∧ w = .uninitialized u) := by
  constructor
  · intro h
    by_cases heq : v = w
    · subst heq
      rw [merge_self] at h
      exact Or.inl ⟨h, Or.inl h⟩
    · -- two different values: of all rules only those for objects of a class give an allocation
      unfold merge meet at h
      split at h
      · cases h
      · cases h
      · rw [if_neg heq] at h
        split at h
        · cases h
        · cases h
        · split at h
          · next hclass =>
            cases h
            exact Or.inl ⟨rfl, Or.inr (by rw [hclass])⟩
          · cases h
        · split at h
          · next hclass =>
            cases h
            exact Or.inr ⟨by rw [hclass], rfl⟩
          · cases h
        · cases h
        · cases h
  · rintro (⟨rfl, rfl | rfl⟩ | ⟨rfl, rfl⟩)
    · exact merge_self _
    · rw [merge_uninitialized_object, if_pos rfl]
    · rw [merge_object_uninitialized, if_pos rfl]

/-- Values that merge to a wide value are that value. -/
theorem eq_of_width_merge {v w : VType} (h : width (merge oracle v w) = 2) : v = w := by
  by_cases heq : v = w
  · exact heq
  · -- two different values merge to `top` or to a reference
    have hone : width (merge oracle v w) = 1 := by
      unfold merge meet
      split
      · rfl
      · rfl
      · rw [if_neg heq]
        split
        · rfl
        · rfl
        · split <;> rfl
        · split <;> rfl
        · rfl
        · rfl
    omega

/-- A narrow value merges to a narrow one. -/
theorem width_merge_of_narrow {v w : VType} (hv : width v = 1) : width (merge oracle v w) = 1 := by
  rcases width_eq_one_or_two (merge oracle v w) with h | h
  · exact h
  · have heq := eq_of_width_merge h
    subst heq
    rw [merge_self] at h
    omega

end VType

/-! ## Locals

Values are laid out word by word, and the words are merged in pairs. Where the layouts do not fit,
the words become unusable one by one, so that what comes out is a layout again. -/

/-- The word of a merge of locals at which two words meet. -/
def Cell.joined (oracle : Oracle) : Cell → Cell → Cell
  | first v, first w => .first (if width v = width w then v.merge oracle w else .top)
  | second v, second w =>
    if width (v.merge oracle w) = 2 then .second (v.merge oracle w) else .first .top
  | _, _ => .first .top

/-- The values that come out where two lists of words meet. -/
def Cell.mergeAll (oracle : Oracle) (c d : List Cell) : List VType :=
  (c.zip d).filterMap fun (c, d) => c.merge oracle d

namespace Cell

variable {oracle : Oracle}

theorem mergeAll_cons_some {c d : Cell} {v : VType} (h : c.merge oracle d = some v)
    (cs ds : List Cell) :
    mergeAll oracle (c :: cs) (d :: ds) = v :: mergeAll oracle cs ds := by
  simp [mergeAll, h]

/-- The second words of two wide values give nothing of their own. -/
theorem mergeAll_cons_none {c d : Cell} (h : c.merge oracle d = none) (cs ds : List Cell) :
    mergeAll oracle (c :: cs) (d :: ds) = mergeAll oracle cs ds := by
  simp [mergeAll, h]

/-- A pair of words that gives `top` is laid out as one unusable word. -/
theorem ofValues_mergeAll_cons_top {c d : Cell} (h : c.merge oracle d = some .top)
    {cs ds : List Cell}
    (hrest : ofValues (mergeAll oracle cs ds) = List.zipWith (joined oracle) cs ds)
    (hcell : c.joined oracle d = .first .top) :
    ofValues (mergeAll oracle (c :: cs) (d :: ds))
      = List.zipWith (joined oracle) (c :: cs) (d :: ds) := by
  rw [mergeAll_cons_some h, ofValues_cons, hrest, List.zipWith_cons_cons, hcell]
  rfl

/-- Values of one width that meet merge, and what the result lacks in width is unusable. -/
theorem mergeAll_ofValues_cons {v w : VType} (h : width v = width w) (a b : List VType) :
    mergeAll oracle (ofValues (v :: a)) (ofValues (w :: b))
      = v.merge oracle w :: (List.replicate (width v - width (v.merge oracle w)) .top
          ++ mergeAll oracle (ofValues a) (ofValues b)) := by
  have hmerge : Cell.merge oracle (.first v) (.first w) = some (v.merge oracle w) := by
    rw [Cell.merge, if_pos h]
  rw [ofValues_cons, ofValues_cons]
  rcases width_eq_one_or_two v with hv | hv
  · rw [ofValue_of_narrow hv, ofValue_of_narrow (by omega), VType.width_merge_of_narrow hv, hv]
    exact mergeAll_cons_some hmerge ..
  · rw [ofValue_of_wide hv, ofValue_of_wide (by omega)]
    refine (mergeAll_cons_some hmerge ..).trans (congrArg _ ?_)
    show mergeAll oracle (.second v :: ofValues a) (.second w :: ofValues b) = _
    -- the merge of two wide values is wide or unusable; if unusable it leaves two words
    rcases width_eq_one_or_two (v.merge oracle w) with hm | hm
    · have htop : Cell.merge oracle (.second v) (.second w) = some .top := by
        rw [Cell.merge, if_neg (by omega)]
      rw [hv, hm]
      exact mergeAll_cons_some htop ..
    · have hnone : Cell.merge oracle (.second v) (.second w) = none := by
        rw [Cell.merge, if_pos hm]
      rw [hv, hm]
      exact mergeAll_cons_none hnone ..

mutual

/-- Merging locals works on each pair of words alone. The recursion goes down both lists; where one
of them is in the middle of a wide value, the two lemmas below take over. -/
theorem cells_aligned (a b : List VType) :
    ofValues (mergeAll oracle (ofValues a) (ofValues b))
      = List.zipWith (joined oracle) (ofValues a) (ofValues b) := by
  match a, b with
  | [], b => rfl
  | v :: a, [] => simp [mergeAll, ofValues]
  | v :: a, w :: b =>
    rcases width_eq_one_or_two v with hv | hv <;> rcases width_eq_one_or_two w with hw | hw
    · -- two narrow values merge to a narrow one
      have hnarrow : width (v.merge oracle w) = 1 := VType.width_merge_of_narrow hv
      rw [mergeAll_ofValues_cons (by omega), hv, hnarrow, ofValues_cons]
      show ofValue _ ++ ofValues (mergeAll oracle (ofValues a) (ofValues b)) = _
      rw [cells_aligned a b, ofValue_of_narrow hnarrow, ofValues_cons v a, ofValues_cons w b,
        ofValue_of_narrow hv, ofValue_of_narrow hw]
      simp [joined, hv, hw]
    · -- a narrow value against a wide one: nothing usable, and the second list stays behind
      rw [ofValues_cons v a, ofValues_cons w b, ofValue_of_narrow hv, ofValue_of_wide hw]
      have hne : ¬ width v = width w := by omega
      refine ofValues_mergeAll_cons_top ?_ (cells_ahead a b w) ?_
      · rw [Cell.merge, if_neg hne]
      · rw [joined, if_neg hne]
    · rw [ofValues_cons v a, ofValues_cons w b, ofValue_of_wide hv, ofValue_of_narrow hw]
      have hne : ¬ width v = width w := by omega
      refine ofValues_mergeAll_cons_top ?_ (cells_behind a b v) ?_
      · rw [Cell.merge, if_neg hne]
      · rw [joined, if_neg hne]
    · -- two wide values: either they merge to a wide one, or both words become unusable
      rw [mergeAll_ofValues_cons (by omega), hv, ofValues_cons, ofValues_cons v a,
        ofValues_cons w b, ofValue_of_wide hv, ofValue_of_wide hw]
      rcases width_eq_one_or_two (v.merge oracle w) with hm | hm
      · rw [hm, ofValue_of_narrow hm]
        show _ ++ (.first .top :: ofValues (mergeAll oracle (ofValues a) (ofValues b))) = _
        rw [cells_aligned a b]
        simp [joined, hv, hw, hm]
      · rw [hm, ofValue_of_wide hm]
        show _ ++ ofValues (mergeAll oracle (ofValues a) (ofValues b)) = _
        rw [cells_aligned a b]
        simp [joined, hv, hw, hm]
termination_by a.length + b.length

/-- The first list is in the middle of a wide value. -/
theorem cells_behind (a b : List VType) (v : VType) :
    ofValues (mergeAll oracle (.second v :: ofValues a) (ofValues b))
      = List.zipWith (joined oracle) (.second v :: ofValues a) (ofValues b) := by
  match b with
  | [] => rfl
  | w :: b =>
    rw [ofValues_cons w b]
    rcases width_eq_one_or_two w with hw | hw
    · rw [ofValue_of_narrow hw]
      exact ofValues_mergeAll_cons_top rfl (cells_aligned a b) rfl
    · rw [ofValue_of_wide hw]
      exact ofValues_mergeAll_cons_top rfl (cells_ahead a b w) rfl
termination_by a.length + b.length

/-- The second list is in the middle of a wide value. -/
theorem cells_ahead (a b : List VType) (w : VType) :
    ofValues (mergeAll oracle (ofValues a) (.second w :: ofValues b))
      = List.zipWith (joined oracle) (ofValues a) (.second w :: ofValues b) := by
  match a with
  | [] => rfl
  | v :: a =>
    rw [ofValues_cons v a]
    rcases width_eq_one_or_two v with hv | hv
    · rw [ofValue_of_narrow hv]
      exact ofValues_mergeAll_cons_top rfl (cells_aligned a b) rfl
    · rw [ofValue_of_wide hv]
      exact ofValues_mergeAll_cons_top rfl (cells_behind a b v) rfl
termination_by a.length + b.length

end

end Cell

/-- The words of merged locals are the words of both, merged in pairs. -/
theorem cells_mergeLocals (oracle : Oracle) (a b : List VType) :
    Cell.ofValues (mergeLocals oracle a b)
      = List.zipWith (Cell.joined oracle) (Cell.ofValues a) (Cell.ofValues b) :=
  Cell.cells_aligned a b

/-- Merged locals are as long as the shorter ones. -/
theorem wordCount_mergeLocals (oracle : Oracle) (a b : List VType) :
    wordCount (mergeLocals oracle a b) = min (wordCount a) (wordCount b) := by
  rw [← Cell.length_ofValues, cells_mergeLocals, List.length_zipWith, Cell.length_ofValues,
    Cell.length_ofValues]

/-- A usable value survives at a word exactly if values of one width start there that merge to
it. -/
theorem usableAt_mergeLocals_iff {oracle : Oracle} {a b : List VType} {n : Nat} {x : VType} :
    UsableAt (mergeLocals oracle a b) n x
      ↔ ∃ v w, valueAt? a n = some v ∧ valueAt? b n = some w ∧ width v = width w
          ∧ v.merge oracle w = x ∧ x ≠ .top := by
  unfold UsableAt
  rw [← Cell.getElem?_ofValues_eq_first_iff, cells_mergeLocals, List.getElem?_zipWith]
  constructor
  · rintro ⟨hcell, hne⟩
    cases hc : (Cell.ofValues a)[n]? with
    | none => simp [hc] at hcell
    | some c =>
      cases hd : (Cell.ofValues b)[n]? with
      | none => simp [hc, hd] at hcell
      | some d =>
        simp only [hc, hd, Option.some.injEq] at hcell
        -- only where values start in both lists can anything but `top` come out
        cases c with
        | second v =>
          cases d with
          | first w => cases hcell; exact absurd rfl hne
          | second w =>
            rw [Cell.joined] at hcell
            split at hcell
            · cases hcell
            · cases hcell; exact absurd rfl hne
        | first v =>
          cases d with
          | second w => cases hcell; exact absurd rfl hne
          | first w =>
            rw [Cell.joined, Cell.first.injEq] at hcell
            by_cases hwidth : width v = width w
            · rw [if_pos hwidth] at hcell
              exact ⟨v, w, (Cell.getElem?_ofValues_eq_first_iff a n v).mp hc,
                (Cell.getElem?_ofValues_eq_first_iff b n w).mp hd, hwidth, hcell, hne⟩
            · rw [if_neg hwidth] at hcell
              exact absurd hcell.symm hne
  · rintro ⟨v, w, hv, hw, hwidth, hmerge, hne⟩
    rw [(Cell.getElem?_ofValues_eq_first_iff a n v).mpr hv,
      (Cell.getElem?_ofValues_eq_first_iff b n w).mpr hw]
    refine ⟨?_, hne⟩
    rw [← hmerge]
    simp [Cell.joined, hwidth]

/-! ## Frames

Stacks are merged value by value, and the widths have to be the same before and after. So a merge of
frames fails for its stacks only. -/

/-- Two values may merge at one place of a stack. -/
def VType.Fits (oracle : Oracle) (v w : VType) : Prop :=
  width v = width w ∧ width (v.merge oracle w) = width v

/-- Two values merge on a stack if they fit. -/
theorem mergeStackValue_eq_ok_iff {oracle : Oracle} {v w x : VType} :
    mergeStackValue oracle v w = .ok x ↔ v.Fits oracle w ∧ x = v.merge oracle w := by
  unfold mergeStackValue VType.Fits
  by_cases h : width v = width w ∧ width (v.merge oracle w) = width v
  · rw [if_pos h, Except.ok.injEq]
    constructor
    · intro hx; exact ⟨h, hx.symm⟩
    · rintro ⟨_, hx⟩; exact hx.symm
  · rw [if_neg h]
    simp [h]

/-- Stacks of one length merge if all of their values fit. -/
theorem mapM_mergeStackValue {oracle : Oracle} {a b c : List VType} (hlen : a.length = b.length) :
    (a.zip b).mapM (fun (v, w) => mergeStackValue oracle v w) = .ok c
      ↔ List.Forall₂ (VType.Fits oracle) a b ∧ c = List.zipWith (VType.merge oracle) a b := by
  induction a generalizing b c with
  | nil =>
    cases b with
    | cons w b => cases hlen
    | nil =>
      show Except.ok [] = Except.ok c ↔ _
      simp [eq_comm]
  | cons v a ih =>
    cases b with
    | nil => cases hlen
    | cons w b =>
      rw [List.zip_cons_cons, List.mapM_cons, List.zipWith_cons_cons, List.forall₂_cons]
      -- by the head and then the rest, in the order in which `mapM` fails
      have hrest := fun c => ih (c := c) (Nat.succ.inj hlen)
      cases hhead : mergeStackValue oracle v w with
      | error e =>
        have hnot : ¬ v.Fits oracle w := fun hfits => by
          rw [mergeStackValue_eq_ok_iff.mpr ⟨hfits, rfl⟩] at hhead
          cases hhead
        simp only [bind, Except.bind, hhead, hnot, false_and, iff_false]
        intro h
        cases h
      | ok x =>
        obtain ⟨hfits, rfl⟩ := mergeStackValue_eq_ok_iff.mp hhead
        cases htail : (a.zip b).mapM (fun (v, w) => mergeStackValue oracle v w) with
        | error e =>
          have hnot : ¬ List.Forall₂ (VType.Fits oracle) a b := fun hall => by
            rw [(hrest _).mpr ⟨hall, rfl⟩] at htail
            cases htail
          simp only [bind, Except.bind, hhead, hnot, and_false, false_and, iff_false]
          intro h
          cases h
        | ok c' =>
          obtain ⟨hall, rfl⟩ := (hrest c').mp htail
          simp only [bind, Except.bind, hhead, hfits, hall, true_and, pure, Except.pure,
            Except.ok.injEq]
          exact eq_comm

namespace Frame

variable {oracle : Oracle} {f g m : Frame}

/-- Stacks that fit are as deep as each other, in values and in words. -/
theorem length_eq_of_fits {a b : List VType} (h : List.Forall₂ (VType.Fits oracle) a b) :
    a.length = b.length ∧ wordCount a = wordCount b := by
  induction h with
  | nil => exact ⟨rfl, rfl⟩
  | cons hfits _ ih =>
    rw [List.length_cons, List.length_cons, wordCount_cons, wordCount_cons, ih.1, ih.2, hfits.1]
    exact ⟨rfl, rfl⟩

theorem wordCount_zipWith_merge {a b : List VType} (h : List.Forall₂ (VType.Fits oracle) a b) :
    wordCount (List.zipWith (VType.merge oracle) a b) = wordCount a := by
  induction h with
  | nil => rfl
  | cons hfits _ ih => rw [List.zipWith_cons_cons, wordCount_cons, wordCount_cons, ih, hfits.2]

/-- Frames merge exactly if their stacks match value by value, and what comes out holds the merged
values. -/
theorem merge_eq_ok_iff :
    f.merge oracle g = .ok m
      ↔ List.Forall₂ (VType.Fits oracle) f.stack g.stack
        ∧ m = ⟨.ofList (mergeLocals oracle f.locals.toList g.locals.toList),
            List.zipWith (VType.merge oracle) f.stack g.stack⟩ := by
  unfold merge
  cases hdepth : f.sameDepth g with
  | false =>
    constructor
    · intro h; cases h
    · rintro ⟨hall, _⟩
      have hsame : f.sameDepth g = true := by
        rw [sameDepth, decide_eq_true_eq]
        exact length_eq_of_fits hall
      rw [hdepth] at hsame
      cases hsame
  | true =>
    have hlen : f.stack.length = g.stack.length := by
      simp only [sameDepth, decide_eq_true_eq] at hdepth
      exact hdepth.1
    have hstack : ∀ c, (f.stack.reverse.zip g.stack.reverse).mapM
        (fun (v, w) => mergeStackValue oracle v w) = .ok c
          ↔ List.Forall₂ (VType.Fits oracle) f.stack g.stack
            ∧ c = List.zipWith (VType.merge oracle) f.stack.reverse g.stack.reverse := fun c => by
      rw [mapM_mergeStackValue (by simpa using hlen), List.forall₂_reverse_iff]
    -- the values are merged from the bottom of the stack up; a match of two stacks reads either way
    simp only [Bool.not_true, Bool.false_eq_true, if_false]
    cases hmap : (f.stack.reverse.zip g.stack.reverse).mapM
        (fun (v, w) => mergeStackValue oracle v w) with
    | error e =>
      constructor
      · intro h; cases h
      · rintro ⟨hall, _⟩
        rw [(hstack _).mpr ⟨hall, rfl⟩] at hmap
        cases hmap
    | ok c =>
      obtain ⟨hall, rfl⟩ := (hstack c).mp hmap
      show Except.ok _ = Except.ok m ↔ _
      rw [Except.ok.injEq, ← List.reverse_zipWith hlen, List.reverse_reverse]
      simp [hall, eq_comm]

/-- A merged frame has a stack as deep as either. -/
theorem stack_of_merge (h : f.merge oracle g = .ok m) :
    m.stack.length = f.stack.length ∧ f.stack.length = g.stack.length
      ∧ m.stackWords = f.stackWords ∧ f.stackWords = g.stackWords := by
  obtain ⟨hall, rfl⟩ := merge_eq_ok_iff.mp h
  obtain ⟨hlen, hwords⟩ := length_eq_of_fits hall
  exact ⟨by simp [hlen], hlen, wordCount_zipWith_merge hall, hwords⟩

/-- A merged frame has locals as long as the shorter ones. -/
theorem words_of_merge (h : f.merge oracle g = .ok m) :
    m.locals.words = min f.locals.words g.locals.words := by
  obtain ⟨_, rfl⟩ := merge_eq_ok_iff.mp h
  rw [WordSeq.words_ofList, wordCount_mergeLocals, WordSeq.words_eq_wordCount,
    WordSeq.words_eq_wordCount]

end Frame

end JvmFrames
