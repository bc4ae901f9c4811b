import JvmFrames.Proofs.Merge

/-!
# Merging locals side by side

Two lists of locals can be merged value by value, in one pass over both (`mergeWalk`). Values of one
width are merged, with padding where the result is narrower. Where the widths differ, the pass goes
on in the list that is behind until both are at the same word again (`realign`), and all words on
the way are lost; that may happen any number of times, and either list may end before. The pass does
what merging word by word does (`mergeWalk_eq`), so it never needs negative padding.

What comes out is described word by word in `merged_locals_by_word`.
-/

namespace JvmFrames

/-! ## The pass

`realign` keeps count of the words read on both sides and reads on where the count is lower. Values
have one or two words, so it reads alternately until the counts meet. -/

/-- Where two lists of values are at the same word again: the words read, and what is left. -/
structure Realigned where
  words : Nat
  left : List VType
  right : List VType

/-- Reads on in two lists, of which `m` and `n` words have been read, until that is as many of both
or the list that is behind ends. -/
def realign (m n : Nat) (a b : List VType) : Realigned :=
  if m = n then ⟨m, a, b⟩
  else if m < n then
    match a with
    | [] => ⟨m, [], b⟩
    | v :: a => realign (m + width v) n a b
  else
    match b with
    | [] => ⟨n, a, []⟩
    | w :: b => realign m (n + width w) a b
termination_by a.length + b.length

section

variable {m n : Nat}

theorem realign_self (n : Nat) (a b : List VType) : realign n n a b = ⟨n, a, b⟩ := by
  rw [realign.eq_def, if_pos rfl]

theorem realign_left_nil (h : m < n) (b : List VType) : realign m n [] b = ⟨m, [], b⟩ := by
  rw [realign.eq_def, if_neg (by omega), if_pos h]

theorem realign_left_cons (h : m < n) (v : VType) (a b : List VType) :
    realign m n (v :: a) b = realign (m + width v) n a b := by
  rw [realign.eq_def, if_neg (by omega), if_pos h]

theorem realign_right_nil (h : n < m) (a : List VType) : realign m n a [] = ⟨n, a, []⟩ := by
  rw [realign.eq_def, if_neg (by omega), if_neg (by omega)]

theorem realign_right_cons (h : n < m) (a : List VType) (w : VType) (b : List VType) :
    realign m n a (w :: b) = realign m (n + width w) a b := by
  rw [realign.eq_def, if_neg (by omega), if_neg (by omega)]

end

/-- Reading on leaves no more than there was, so the pass ends. -/
theorem length_realign_le (m n : Nat) (a b : List VType) :
    (realign m n a b).left.length + (realign m n a b).right.length ≤ a.length + b.length := by
  fun_induction realign m n a b with
  | case1 => exact Nat.le_refl _
  | case2 => exact Nat.le_refl _
  | case3 m n b _ _ v a ih =>
    rw [List.length_cons]
    omega
  | case4 => exact Nat.le_refl _
  | case5 m n a _ _ w b ih =>
    rw [List.length_cons]
    omega

/-- Merges two lists of locals in one pass. There is no result if a merged value is wider than the
values it is merged from, since it could not be padded to their width. -/
def mergeWalk (oracle : Oracle) : List VType → List VType → Option (List VType)
  | v :: a, w :: b =>
    if width v = width w then
      if width (v.merge oracle w) ≤ width v then
        (mergeWalk oracle a b).map fun rest => v.merge oracle w ::
          (List.replicate (width v - width (v.merge oracle w)) .top ++ rest)
      else none
    else
      have := length_realign_le (width v) (width w) a b
      (mergeWalk oracle (realign (width v) (width w) a b).left
          (realign (width v) (width w) a b).right).map
        fun rest => List.replicate (realign (width v) (width w) a b).words .top ++ rest
  | _, _ => some []
termination_by a b => a.length + b.length

/-! ## What the pass gives

While one list is in the middle of a wide value, no pair of words has two values starting. Each such
word is lost in the merge by words, just as it is in the pass. -/

variable {oracle : Oracle}

/-- Values of one width merge to something no wider, so padding is never negative. -/
theorem VType.width_merge_le {v w : VType} (h : width v = width w) :
    width (v.merge oracle w) ≤ width v := by
  rcases width_eq_one_or_two v with hv | hv
  · rw [width_merge_of_narrow hv]
    omega
  · rcases width_eq_one_or_two (v.merge oracle w) with hm | hm <;> omega

namespace Cell

mutual

/-- The first list is a word behind: as many words are lost as `realign` reads of it. -/
theorem mergeAll_realign_left {m n : Nat} (h : n = m + 1) (a b : List VType) (w : VType) :
    ∃ k, (realign m n a b).words = m + k
      ∧ mergeAll oracle (ofValues a) (.second w :: ofValues b)
        = List.replicate k .top ++ mergeLocals oracle (realign m n a b).left
            (realign m n a b).right := by
  match a with
  | [] =>
    rw [realign_left_nil (by omega)]
    exact ⟨0, rfl, rfl⟩
  | v :: a =>
    rw [realign_left_cons (by omega), ofValues_cons]
    rcases width_eq_one_or_two v with hv | hv
    · rw [ofValue_of_narrow hv, hv, ← h, realign_self]
      exact ⟨1, h, mergeAll_cons_some rfl ..⟩
    · -- now the second list is a word behind
      obtain ⟨k, hwords, hcells⟩ :=
        mergeAll_realign_right (show m + width v = n + 1 by omega) a b v
      refine ⟨k + 1, by omega, ?_⟩
      rw [List.replicate_succ, List.cons_append, ← hcells, ofValue_of_wide hv]
      exact mergeAll_cons_some rfl ..
termination_by a.length + b.length

/-- The second list is a word behind. -/
theorem mergeAll_realign_right {m n : Nat} (h : m = n + 1) (a b : List VType) (v : VType) :
    ∃ k, (realign m n a b).words = n + k
      ∧ mergeAll oracle (.second v :: ofValues a) (ofValues b)
        = List.replicate k .top ++ mergeLocals oracle (realign m n a b).left
            (realign m n a b).right := by
  match b with
  | [] =>
    rw [realign_right_nil (by omega)]
    refine ⟨0, rfl, ?_⟩
    simp [mergeAll, mergeLocals, ofValues]
  | w :: b =>
    rw [realign_right_cons (by omega), ofValues_cons]
    -- a narrow value catches up, a wide one overtakes and leaves the first list a word behind
    rcases width_eq_one_or_two w with hw | hw
    · rw [ofValue_of_narrow hw, hw, ← h, realign_self]
      exact ⟨1, h, mergeAll_cons_some rfl ..⟩
    · obtain ⟨k, hwords, hcells⟩ :=
        mergeAll_realign_left (show n + width w = m + 1 by omega) a b w
      refine ⟨k + 1, by omega, ?_⟩
      rw [List.replicate_succ, List.cons_append, ← hcells, ofValue_of_wide hw]
      exact mergeAll_cons_some rfl ..
termination_by a.length + b.length

end

/-- Where values of different width meet, everything is lost up to where the lists are at the same
word again. -/
theorem mergeLocals_cons_of_ne {v w : VType} (h : width v ≠ width w) (a b : List VType) :
    mergeLocals oracle (v :: a) (w :: b)
      = List.replicate (realign (width v) (width w) a b).words .top
        ++ mergeLocals oracle (realign (width v) (width w) a b).left
            (realign (width v) (width w) a b).right := by
  have hmerge : Cell.merge oracle (.first v) (.first w) = some .top := by
    rw [Cell.merge, if_neg h]
  show mergeAll oracle (ofValue v ++ ofValues a) (ofValue w ++ ofValues b) = _
  rcases width_eq_one_or_two v with hv | hv
  · -- one of them is narrow and the other is wide, and each order has its own lemma
    have hw : width w = 2 := (width_eq_one_or_two w).resolve_left (by omega)
    obtain ⟨k, hwords, hcells⟩ :=
      mergeAll_realign_left (show width w = width v + 1 by omega) a b w
    rw [hwords, show width v + k = k + 1 by omega, List.replicate_succ, List.cons_append, ← hcells,
      ofValue_of_narrow hv, ofValue_of_wide hw]
    exact mergeAll_cons_some hmerge ..
  · have hw : width w = 1 := (width_eq_one_or_two w).resolve_right (by omega)
    obtain ⟨k, hwords, hcells⟩ :=
      mergeAll_realign_right (show width v = width w + 1 by omega) a b v
    rw [hwords, show width w + k = k + 1 by omega, List.replicate_succ, List.cons_append, ← hcells,
      ofValue_of_wide hv, ofValue_of_narrow hw]
    exact mergeAll_cons_some hmerge ..

end Cell

/-- One pass over both lists merges them word by word. -/
theorem mergeWalk_eq (oracle : Oracle) (a b : List VType) :
    mergeWalk oracle a b = some (mergeLocals oracle a b) := by
  fun_induction mergeWalk oracle a b with
  | case1 v a w b hwidth hle ih =>
    rw [ih]
    exact congrArg some (Cell.mergeAll_ofValues_cons hwidth a b).symm
  | case2 v a w b hwidth hle => exact absurd (VType.width_merge_le hwidth) hle
  | case3 v a w b hwidth _ ih =>
    rw [ih, Cell.mergeLocals_cons_of_ne hwidth]
    rfl
  | case4 a b hend =>
    -- one of the lists has come to its end
    cases a with
    | nil => rfl
    | cons v a =>
      cases b with
      | nil => simp [mergeLocals, Cell.ofValues]
      | cons w b => exact absurd rfl (hend v a w b rfl)

/-! ## Order of the arguments

Nothing but the oracle could tell the two lists apart. -/

/-- Values merge in either order, if types do. -/
theorem VType.merge_comm (hcomm : ∀ s t, oracle s t = oracle t s) (v w : VType) :
    v.merge oracle w = w.merge oracle v := by
  cases v <;> cases w <;> try rfl
  -- all other pairs merge to `top` or to one of the two, on the face of it
  case object.object s t =>
    rw [merge_object_object, merge_object_object]
    by_cases heq : s = t
    · rw [heq]
    · rw [if_neg heq, if_neg (Ne.symm heq), hcomm]
  case object.uninitialized t u =>
    cases t with
    | object c => rw [merge_object_uninitialized, merge_uninitialized_object]
    | _ => rfl
  case uninitialized.object u t =>
    cases t with
    | object c => rw [merge_object_uninitialized, merge_uninitialized_object]
    | _ => rfl
  case uninitialized.uninitialized u u' =>
    by_cases heq : u = u'
    · rw [heq]
    · simp [merge, meet, heq, Ne.symm heq]

namespace Cell

theorem merge_comm (hcomm : ∀ s t, oracle s t = oracle t s) (c d : Cell) :
    c.merge oracle d = d.merge oracle c := by
  cases c with
  | first v =>
    cases d with
    | first w =>
      rw [Cell.merge, Cell.merge, VType.merge_comm hcomm]
      simp only [eq_comm]
    | second w => rfl
  | second v =>
    cases d with
    | first w => rfl
    | second w => rw [Cell.merge, Cell.merge, VType.merge_comm hcomm]

/-- Lists of words merge in either order, if types do. -/
theorem mergeAll_comm (hcomm : ∀ s t, oracle s t = oracle t s) (c d : List Cell) :
    mergeAll oracle c d = mergeAll oracle d c := by
  induction c generalizing d with
  | nil => cases d <;> rfl
  | cons x c ih =>
    cases d with
    | nil => rfl
    | cons y d =>
      have hxy := merge_comm hcomm x y
      cases hmerge : x.merge oracle y with
      | none => rw [mergeAll_cons_none hmerge, mergeAll_cons_none (hxy ▸ hmerge), ih]
      | some v => rw [mergeAll_cons_some hmerge, mergeAll_cons_some (hxy ▸ hmerge), ih]

end Cell

/-! ## Word by word

The description of merged locals without reference to how they are computed: which word has what,
and why. -/

/-- A word at which nothing usable starts and that no wide value starts before is unusable. -/
theorem WordSeq.startsAt_top {s : WordSeq VType} {n : Nat} (hn : n < s.words)
    (hnone : ¬ ∃ x, x ≠ .top ∧ s.StartsAt n x)
    (hsecond : ¬ ∃ m x, m + 1 = n ∧ width x = 2 ∧ s.StartsAt m x) : s.StartsAt n .top := by
  obtain ⟨m, v, hv, hle, hlt⟩ := s.tiled.covered n hn
  rcases Nat.lt_or_eq_of_le hle with hbefore | rfl
  · have hwidth := width_eq_one_or_two v
    exact absurd ⟨m, v, by omega, by omega, hv⟩ hsecond
  · by_cases htop : v = .top
    · rw [← htop]
      exact hv
    · exact absurd ⟨v, htop, hv⟩ hnone

/-- A usable value starts at a word of the merge if two values of one width start there that merge
to it. -/
theorem WordSeq.startsAt_merged_iff {a b : WordSeq VType} {n : Nat} {x : VType} (hx : x ≠ .top) :
    (ofList (mergeLocals oracle a.toList b.toList)).StartsAt n x
      ↔ ∃ v w, a.StartsAt n v ∧ b.StartsAt n w ∧ width v = width w ∧ v.merge oracle w = x := by
  have hmerge : UsableAt (mergeLocals oracle a.toList b.toList) n x ↔ _ := usableAt_mergeLocals_iff
  simp only [UsableAt, and_iff_left hx] at hmerge
  simp only [startsAt_iff, toList_ofList]
  exact hmerge

/-- Merging locals, by the word. What comes out has the words of the shorter list. A usable value
starts at a word exactly if values of one width start there on both sides and merge to it; the
other words are unusable, each for itself, but for the second words of such values. One pass over
both lists gives this, and no merged value is too wide for its place. The order of the lists does
not matter unless it does to the oracle. -/
theorem merged_locals_by_word (oracle : Oracle) (a b : WordSeq VType) :
    let merged : WordSeq VType := .ofList (mergeLocals oracle a.toList b.toList)
    merged.words = min a.words b.words
      ∧ (∀ n < min a.words b.words, ∀ x, x ≠ .top →
          (merged.StartsAt n x ↔ ∃ v w, a.StartsAt n v ∧ b.StartsAt n w ∧ width v = width w
            ∧ v.merge oracle w = x))
      ∧ (∀ n < min a.words b.words, (¬ ∃ x, x ≠ .top ∧ merged.StartsAt n x) →
          (¬ ∃ m x, m + 1 = n ∧ width x = 2 ∧ merged.StartsAt m x) → merged.StartsAt n .top)
      ∧ (∀ v w : VType, width v = width w → width (v.merge oracle w) ≤ width v)
      ∧ mergeWalk oracle a.toList b.toList = some merged.toList
      ∧ ((∀ s t, oracle s t = oracle t s) →
          mergeLocals oracle b.toList a.toList = merged.toList) := by
  intro merged
  have hlist : merged.toList = mergeLocals oracle a.toList b.toList := WordSeq.toList_ofList _
  have hwords : merged.words = min a.words b.words := by
    rw [WordSeq.words_ofList, wordCount_mergeLocals, a.words_eq_wordCount, b.words_eq_wordCount]
  -- the parts were proved by the word; the walk is one more way to get the same list
  refine ⟨hwords, fun n _ x hx => WordSeq.startsAt_merged_iff hx,
    fun n hn => WordSeq.startsAt_top (hwords ▸ hn), fun v w => VType.width_merge_le, ?_,
    fun hcomm => ?_⟩
  · rw [hlist]
    exact mergeWalk_eq oracle ..
  · rw [hlist]
    exact Cell.mergeAll_comm hcomm ..

/-- The lists fall out of step twice and meet again. -/
theorem merged_locals_by_word_out_of_step :
    let oracle : Oracle := fun _ _ => .javaObject
    let a : WordSeq VType := .ofList
      [.integer, .long, .float, .integer, .integer, .object .string]
    let b : WordSeq VType := .ofList [.long, .integer, .float, .long, .object .throwable]
    let merged : WordSeq VType := .ofList (mergeLocals oracle a.toList b.toList)
    merged.toList = [.top, .top, .top, .float, .top, .top, .object .javaObject]
      ∧ merged.StartsAt 6 (.object .javaObject) ∧ merged.StartsAt 4 .top
      ∧ mergeWalk oracle a.toList b.toList = some merged.toList
      ∧ mergeLocals oracle b.toList a.toList = merged.toList := by
  intro oracle a b merged
  obtain ⟨_, husable, _, _, hwalk, hcomm⟩ := merged_locals_by_word oracle a b
  have hstring : a.StartsAt 6 (.object .string) := ⟨5, rfl⟩
  have hthrowable : b.StartsAt 6 (.object .throwable) := ⟨4, rfl⟩
  refine ⟨by decide, (husable 6 (by decide) _ (by decide)).mpr ?_, ⟨4, rfl⟩, hwalk,
    hcomm fun _ _ => rfl⟩
  exact ⟨_, _, hstring, hthrowable, rfl, rfl⟩

end JvmFrames
