import JvmFrames.Proofs.WordEdits
import JvmFrames.Proofs.Words

/-!
# Storing by splices

`Frame.store` says what locals are after a store: the words before the slot, the value, and the
words behind it. Here is how that comes about on the entries of the locals (`WordSeq.update`).
Missing words are added first. Then the entry that covers the slot is looked up, a wide one is split
if the slot is its second word, and the value takes the place of the entries it overlaps, which are
one or two. What it overlaps in part leaves an unusable word behind.

Both give the same locals (`Frame.update_locals`). The entries before the slot and those behind the
overlap stay, so cutting a list of values by words is reduced to the entries in between
(`Frame.takeWords_append`, `Frame.dropWords_append`), and each splice is one case of
`WordSeq.overwrite_of_toList`.
-/

namespace JvmFrames

/-! ## Cutting by words

A cut that lies behind some first values leaves them alone. -/

namespace Frame

@[simp] theorem takeWords_zero (values : List VType) : takeWords values 0 = [] := by
  cases values <;> rfl

@[simp] theorem dropWords_zero (values : List VType) : dropWords values 0 = values := by
  cases values <;> rfl

/-- A cut behind some values keeps them and cuts the others. -/
theorem takeWords_append (front back : List VType) (n : Nat) :
    takeWords (front ++ back) (wordCount front + n) = front ++ takeWords back n := by
  induction front with
  | nil => rw [wordCount_nil, Nat.zero_add]; rfl
  | cons v rest ih =>
    have hpos := width_pos v
    have hsub : width v + wordCount rest + n - width v = wordCount rest + n := by omega
    rw [wordCount_cons, List.cons_append, takeWords, if_neg (by omega), if_pos (by omega), hsub, ih]
    rfl

/-- What is left behind such a cut does not depend on them. -/
theorem dropWords_append (front back : List VType) (n : Nat) :
    dropWords (front ++ back) (wordCount front + n) = dropWords back n := by
  induction front with
  | nil => rw [wordCount_nil, Nat.zero_add]; rfl
  | cons v rest ih =>
    have hpos := width_pos v
    have hsub : width v + wordCount rest + n - width v = wordCount rest + n := by omega
    rw [wordCount_cons, List.cons_append, dropWords, if_neg (by omega), if_pos (by omega), hsub, ih]

/-- The first words of values that are too few are all of them, and unusable words for the rest. -/
theorem takeWords_of_le {values : List VType} {n : Nat} (h : wordCount values ≤ n) :
    takeWords values n = values ++ List.replicate (n - wordCount values) .top := by
  obtain ⟨k, rfl⟩ := Nat.exists_eq_add_of_le h
  have happend := takeWords_append values [] k
  rw [List.append_nil] at happend
  rw [happend, Nat.add_sub_cancel_left, takeWords]

/-- Nothing is left behind all of the words. -/
theorem dropWords_of_le {values : List VType} {n : Nat} (h : wordCount values ≤ n) :
    dropWords values n = [] := by
  obtain ⟨k, rfl⟩ := Nat.exists_eq_add_of_le h
  have happend := dropWords_append values [] k
  rw [List.append_nil] at happend
  rw [happend, dropWords]

/-- A value that is dropped as a whole takes its words with it. -/
theorem dropWords_cons_of_le {w : VType} {n : Nat} (h : width w ≤ n) (back : List VType) :
    dropWords (w :: back) n = dropWords back (n - width w) := by
  have hpos := width_pos w
  rw [dropWords, if_neg (by omega), if_pos h]

/-- A cut through a wide value leaves an unusable word on either side. -/
theorem takeWords_one_of_wide {w : VType} (hw : width w = 2) (back : List VType) :
    takeWords (w :: back) 1 = [.top] := by
  rw [takeWords, if_neg Nat.one_ne_zero, if_neg (by omega)]
  rfl

/-- The second word of a wide value is what is left of it. -/
theorem dropWords_one_of_wide {w : VType} (hw : width w = 2) (back : List VType) :
    dropWords (w :: back) 1 = .top :: back := by
  rw [dropWords, if_neg Nat.one_ne_zero, if_neg (by omega), hw]
  rfl

end Frame

namespace WordSeq

/-! ## The steps of an update

An update pads, looks up and splices. Padding is a loop that adds one word at a time, and ends since
each round adds one. -/

/-- With unusable words added until there are `n` words. -/
def padTo (s : WordSeq VType) (n : Nat) : WordSeq VType :=
  if s.words < n then (s.push .top).padTo n else s
termination_by n - s.words
decreasing_by
  rw [words_push, show width (VerificationType.top : VType) = 1 from rfl]
  omega

/-- With a value stored from the start of an entry on. It may be as wide as the entry, narrower or
wider; a wider one takes words of the next entry too, if there is one. -/
def overwrite (s : WordSeq VType) (index : Nat) (v : VType) : Option (WordSeq VType) :=
  let old := (s.get? index).elim (width v) fun (_, w) => width w
  if width v = old then s.splice? index (index + 1) [v]
  else if width v < old then s.splice? index (index + 1) [v, .top]
  else match s.get? (index + 1) with
    | none => s.splice? index (index + 1) [v]
    | some (_, next) =>
      if width next = 1 then s.splice? index (index + 2) [v]
      else s.splice? index (index + 2) [v, .top]

/-- With a value stored from a word on. -/
def update (s : WordSeq VType) (n : Nat) (v : VType) : Option (WordSeq VType) :=
  let padded := s.padTo n
  match padded.covering? n with
  | none => some (padded.push v)
  | some (index, start) =>
    if start = n then padded.overwrite index v
    else do
      -- the word is the second one of a wide entry, which is lost
      let split ← padded.splice? index (index + 1) [.top, .top]
      split.overwrite (index + 1) v

variable {s : WordSeq VType} {n : Nat} {v : VType}

/-! ## What each step gives

The entries in front of the change are `front`, those behind it `back`. -/

/-- Nothing is added if there are enough words. -/
theorem padTo_of_le (h : n ≤ s.words) : s.padTo n = s := by
  rw [padTo, if_neg (Nat.not_lt_of_le h)]

/-- The loop adds as many unusable values as words are missing. -/
theorem toList_padTo (s : WordSeq VType) (n : Nat) :
    (s.padTo n).toList = s.toList ++ List.replicate (n - s.words) .top := by
  fun_induction padTo s n with
  | case1 s hlt ih =>
    -- one round, and then one word less is missing
    have hcount : n - s.words = n - (s.push .top).words + 1 := by
      rw [words_push, show width (VerificationType.top : VType) = 1 from rfl]
      omega
    rw [ih, toList_push, hcount, List.replicate_succ, List.append_assoc]
    rfl
  | case2 s hle =>
    rw [Nat.sub_eq_zero_of_le (Nat.le_of_not_lt hle), List.replicate_zero, List.append_nil]

/-- A splice replaces what stands between the entries before it and those behind it. -/
theorem splice?_of_toList {front back : List VType} (middle : List VType)
    (h : s.toList = front ++ (middle ++ back)) (replacement : List VType) :
    s.splice? front.length (front.length + middle.length) replacement
      = some (ofList (front ++ (replacement ++ back))) := by
  have hstart : front.length ≤ s.toList.length := by
    rw [h, List.length_append]
    omega
  have hfront : s.toList.take front.length = front := by rw [h, List.take_left]
  have hback : s.toList.drop (front.length + middle.length) = back := by
    rw [h, ← List.append_assoc, ← List.length_append, List.drop_left]
  obtain ⟨t, hsplice, ht⟩ := splice?_of_le (Nat.le_add_right _ middle.length) hstart replacement
  rw [hsplice]
  refine congrArg some (ext_toList ?_)
  rw [ht, hfront, hback, toList_ofList, List.append_assoc]

section

variable {front back : List VType} {w next : VType}

/-- The entry behind some first values starts after their words. -/
theorem get?_of_toList (h : s.toList = front ++ w :: back) :
    s.get? front.length = some (wordCount front, w) := by
  rw [get?_eq, h, List.getElem?_append_right (Nat.le_refl _), Nat.sub_self, List.take_left]
  rfl

/-- A value takes the place of one of the same width. -/
theorem overwrite_of_width_eq (h : s.toList = front ++ w :: back) (hwidth : width v = width w) :
    s.overwrite front.length v = some (ofList (front ++ v :: back)) := by
  rw [overwrite, get?_of_toList h, Option.elim_some, if_pos hwidth]
  exact splice?_of_toList [w] h [v]

/-- A narrow value over a wide one leaves the second word of the wide one unusable. -/
theorem overwrite_of_width_lt (h : s.toList = front ++ w :: back) (hwidth : width v < width w) :
    s.overwrite front.length v = some (ofList (front ++ v :: .top :: back)) := by
  rw [overwrite, get?_of_toList h, Option.elim_some, if_neg (Nat.ne_of_lt hwidth), if_pos hwidth]
  exact splice?_of_toList [w] h [v, .top]

/-- A wide value over a narrow one depends on what comes next. -/
theorem overwrite_of_width_gt (h : s.toList = front ++ w :: back) (hwidth : width w < width v) :
    s.overwrite front.length v = match s.get? (front.length + 1) with
      | none => s.splice? front.length (front.length + 1) [v]
      | some (_, next) =>
        if width next = 1 then s.splice? front.length (front.length + 2) [v]
        else s.splice? front.length (front.length + 2) [v, .top] := by
  rw [overwrite, get?_of_toList h, Option.elim_some, if_neg (Nat.ne_of_gt hwidth),
    if_neg (Nat.not_lt_of_gt hwidth)]

/-- A wide value over the last entry makes the locals longer. -/
theorem overwrite_last (h : s.toList = front ++ [w]) (hwidth : width w < width v) :
    s.overwrite front.length v = some (ofList (front ++ [v])) := by
  have hnone : s.get? (front.length + 1) = none := by
    rw [get?_eq, h, List.getElem?_eq_none (by simp)]
    rfl
  rw [overwrite_of_width_gt h hwidth, hnone]
  exact splice?_of_toList [w] h [v]

/-- A wide value over two entries. If the second one is wide too, its second word is unusable
now. -/
theorem overwrite_two (h : s.toList = front ++ w :: next :: back) (hwidth : width w < width v) :
    s.overwrite front.length v
      = some (ofList (front ++ v :: if width next = 1 then back else .top :: back)) := by
  have hassoc : s.toList = front ++ [w] ++ next :: back := by
    rw [h, List.append_assoc]
    rfl
  have hnext := get?_of_toList hassoc
  rw [List.length_append, List.length_singleton] at hnext
  rw [overwrite_of_width_gt h hwidth, hnext]
  dsimp only
  -- the next entry goes as a whole, or its first word does
  split
  · exact splice?_of_toList [w, next] h [v]
  · exact splice?_of_toList [w, next] h [v, .top]

/-- Whatever stands at the entry and behind it, overwriting drops just the words that the value
needs. -/
theorem overwrite_of_toList (h : s.toList = front ++ w :: back) (v : VType) :
    s.overwrite front.length v
      = some (ofList (front ++ v :: Frame.dropWords (w :: back) (width v))) := by
  have hv := width_eq_one_or_two v
  have hw := width_eq_one_or_two w
  rcases Nat.lt_trichotomy (width v) (width w) with hlt | heq | hgt
  · obtain ⟨hnarrow, hwide⟩ : width v = 1 ∧ width w = 2 := by omega
    rw [overwrite_of_width_lt h hlt, hnarrow, Frame.dropWords_one_of_wide hwide]
  · rw [overwrite_of_width_eq h heq, heq, Frame.dropWords_cons_of_le (Nat.le_refl _), Nat.sub_self,
      Frame.dropWords_zero]
  · -- one word is to be dropped of what stands behind the entry
    have hone : width v - width w = 1 := by omega
    rw [Frame.dropWords_cons_of_le (Nat.le_of_lt hgt), hone]
    cases back with
    | nil => rw [overwrite_last h hgt, Frame.dropWords]
    | cons next rest =>
      rw [overwrite_two h hgt]
      rcases width_eq_one_or_two next with hnext | hnext
      · rw [if_pos hnext, Frame.dropWords_cons_of_le (Nat.le_of_eq hnext), hnext, Nat.sub_self,
          Frame.dropWords_zero]
      · rw [if_neg (by omega), Frame.dropWords_one_of_wide hnext]

/-! ## The whole update

Either the locals end before the word, or the word is the first or the second one of some entry. -/

/-- Past the end a value is added, behind unusable words if some are skipped. -/
theorem update_past_end (h : s.words ≤ n) (v : VType) :
    s.update n v = some (ofList (s.toList ++ List.replicate (n - s.words) .top ++ [v])) := by
  -- after padding there are just `n` words, so still no entry covers the next one
  have hwords : (s.padTo n).words ≤ n := by
    rw [words_eq_wordCount, toList_padTo, wordCount_append, wordCount_replicate_top,
      ← words_eq_wordCount]
    omega
  rw [update, covering?_of_words_le hwords]
  refine congrArg some (ext_toList ?_)
  rw [toList_push, toList_padTo, toList_ofList]

/-- The entry that an update finds at a word. -/
theorem update_of_toList (h : s.toList = front ++ w :: back) (hstart : wordCount front ≤ n)
    (hend : n < wordCount front + width w) (v : VType) :
    s.update n v = if wordCount front = n then s.overwrite front.length v
      else (s.splice? front.length (front.length + 1) [.top, .top]).bind fun split =>
        split.overwrite (front.length + 1) v := by
  have htake : s.toList.take front.length = front := by rw [h, List.take_left]
  have hocc : Occupies s.toList front.length w n :=
    ⟨by rw [h]; simp, by rw [htake]; exact hstart, by rw [htake]; exact hend⟩
  rw [update, padTo_of_le (Nat.le_of_lt (lt_words hocc)), covering?_of_occupies hocc, htake]
  rfl

/-- A value stored at the second word of a wide entry leaves the first one unusable. -/
theorem update_inside (h : s.toList = front ++ w :: back) (hw : width w = 2) (v : VType) :
    s.update (wordCount front + 1) v
      = some (ofList (front ++ .top :: v :: Frame.dropWords back (width v - 1))) := by
  have hsplit := splice?_of_toList [w] h [.top, .top]
  -- the split leaves two unusable entries, and the second one is overwritten
  have hlist : (ofList (front ++ ([.top, .top] ++ back))).toList
      = (front ++ [.top]) ++ VerificationType.top :: back := by
    rw [toList_ofList, List.append_assoc]
    rfl
  have hover := overwrite_of_toList hlist v
  rw [List.length_append, List.length_singleton, List.append_assoc,
    Frame.dropWords_cons_of_le (width_pos v)] at hover
  rw [List.length_singleton] at hsplit
  rw [update_of_toList h (Nat.le_succ _) (by omega), if_neg (by omega), hsplit]
  exact hover

end

end WordSeq

/-- Storing by splices gives the locals that the words before, at and behind the value make up. -/
theorem Frame.update_locals (f : Frame) (slot : UInt16) (v : VType) :
    f.locals.update slot.toNat v = some (f.store slot v).locals := by
  have hpos := width_pos v
  show _ = some (WordSeq.ofList (takeWords f.locals.toList slot.toNat
    ++ v :: dropWords f.locals.toList (slot.toNat + width v)))
  generalize slot.toNat = n
  rcases WordSeq.words_le_or_occupied f.locals n with hend | ⟨i, w, hocc⟩
  · have hcount : wordCount f.locals.toList ≤ n := by
      rw [← WordSeq.words_eq_wordCount]
      exact hend
    rw [WordSeq.update_past_end hend, takeWords_of_le hcount, dropWords_of_le (by omega),
      WordSeq.words_eq_wordCount]
  · obtain ⟨front, back, hlist, hstart, hlt⟩ := hocc.exists_append
    rw [hlist]
    -- the word is the first one of the entry that covers it, or the second one of a wide entry
    by_cases hfirst : wordCount front = n
    · subst hfirst
      have htake := takeWords_append front (w :: back) 0
      rw [takeWords_zero, List.append_nil, Nat.add_zero] at htake
      rw [WordSeq.update_of_toList hlist hstart hlt, if_pos rfl, WordSeq.overwrite_of_toList hlist,
        htake, dropWords_append]
    · have hw := width_eq_one_or_two w
      obtain ⟨rfl, hwide⟩ : n = wordCount front + 1 ∧ width w = 2 := by omega
      rw [WordSeq.update_inside hlist hwide, takeWords_append, takeWords_one_of_wide hwide,
        Nat.add_assoc, dropWords_append, dropWords_cons_of_le (by omega), List.append_assoc, hwide,
        show 1 + width v - 2 = width v - 1 by omega]
      rfl

end JvmFrames
