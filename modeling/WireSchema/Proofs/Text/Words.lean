import WireSchema.Proofs.Text.Prefix

/-!
# Rows of words and lines

A word is made of ASCII letters, digits and underscores, at least one, and ends where something
else stands.  Words with a space in front of each are a row, and the row ends where no further
word follows, neither at once nor behind a space (`EndsRow`); so the words of a row can be read
off (`spaced_append_inj`), and no word is a key word whatever it says.

A line ends at its line break, which must not stand in it (`lines_append_inj`).
-/

namespace WireSchema
namespace Text

variable {r r' : String}

/-! ## Words -/

/-- Whether a character can stand in a word. -/
def isWordChar (c : Char) : Bool :=
  c.isAlphanum || c == '_'

/-- A word: ASCII letters, digits and underscores, at least one. -/
def IsWord (s : String) : Prop :=
  s ≠ "" ∧ ∀ c ∈ s.toList, isWordChar c = true

instance (s : String) : Decidable (IsWord s) :=
  decidable_of_iff (s ≠ "" ∧ s.toList.all isWordChar = true) (by rw [IsWord, List.all_eq_true])

/-- Whether a word in front of this text is at its end. -/
def EndsWord (r : String) : Prop :=
  ∀ c ∈ r.toList.head?, isWordChar c = false

instance (r : String) : Decidable (EndsWord r) :=
  decidable_of_iff (r.toList.head?.all fun c => !isWordChar c) (by
    rw [EndsWord]
    cases r.toList.head? <;> simp)

theorem endsWord_append {s : String} (hne : s ≠ "") (hs : EndsWord s) (r : String) :
    EndsWord (s ++ r) := by
  match hchars : s.toList with
  | [] => exact absurd (String.toList_eq_nil_iff.1 hchars) hne
  | c :: cs =>
    rw [EndsWord, hchars] at hs
    rw [EndsWord, String.toList_append, hchars]
    exact hs

theorem not_endsWord_append {s : String} (hs : IsWord s) (r : String) : ¬ EndsWord (s ++ r) := by
  intro hends
  obtain ⟨hne, hword⟩ := hs
  match hchars : s.toList with
  | [] => exact hne (String.toList_eq_nil_iff.1 hchars)
  | c :: cs =>
    have hc := hends c (by rw [String.toList_append, hchars]; rfl)
    rw [hword c (by rw [hchars]; exact List.mem_cons_self ..)] at hc
    cases hc

/-- A word ends where something else stands. -/
theorem word_append_inj {s t : String} (hs : IsWord s) (ht : IsWord t) (hr : EndsWord r)
    (hr' : EndsWord r') (h : s ++ r = t ++ r') : s = t ∧ r = r' :=
  text_append_inj hs.2 ht.2 hr hr' h

/-- No line break stands in a word. -/
theorem IsWord.newline_notMem {s : String} (hs : IsWord s) : '\n' ∉ s.toList :=
  fun h => absurd (hs.2 _ h) (by decide)

/-! ## Rows of words -/

/-- Words, each with a space in front. -/
def spaced (words : List String) : String :=
  String.join (words.map (" " ++ ·))

@[simp] theorem spaced_nil : spaced [] = "" := rfl

theorem spaced_cons_append (word : String) (words : List String) (r : String) :
    spaced (word :: words) ++ r = " " ++ (word ++ (spaced words ++ r)) := by
  rw [spaced, List.map_cons, String.join_cons, String.append_assoc, String.append_assoc]
  rfl

/-- Whether a row of words in front of this text is at its end. -/
def EndsRow (r : String) : Prop :=
  EndsWord r ∧ ∀ rest, r = " " ++ rest → EndsWord rest

/-- A row ends in front of what begins neither with a word nor with a space. -/
theorem endsRow_append {s : String} (hne : s ≠ "") (hs : EndsWord s)
    (hspace : s.toList.head? ≠ some ' ') (r : String) : EndsRow (s ++ r) := by
  refine ⟨endsWord_append hne hs r, fun rest hrest => absurd ?_ hspace⟩
  match hchars : s.toList with
  | [] => exact absurd (String.toList_eq_nil_iff.1 hchars) hne
  | c :: cs =>
    have hhead := congrArg (fun text => text.toList.head?) hrest
    simpa [hchars] using hhead

theorem endsWord_spaced_append (words : List String) (hr : EndsRow r) :
    EndsWord (spaced words ++ r) := by
  cases words with
  | nil => simpa using hr.1
  | cons word words =>
    rw [spaced_cons_append]
    exact endsWord_append (by decide) (by decide) _

/-- A row of words ends where no further word follows. -/
theorem spaced_append_inj : ∀ {words words' : List String}, (∀ w ∈ words, IsWord w) →
    (∀ w ∈ words', IsWord w) → EndsRow r → EndsRow r' →
    spaced words ++ r = spaced words' ++ r' → words = words' ∧ r = r'
  | [], [], _, _, _, _, h => by simpa using h
  | [], w :: words, _, hwords, hr, _, h => by
    -- the text behind the row would go on with a space and a word
    rw [spaced_cons_append, spaced_nil, String.empty_append] at h
    exact absurd (hr.2 _ h) (not_endsWord_append (hwords w (List.mem_cons_self ..)) _)
  | w :: words, [], hwords, _, _, hr', h => by
    rw [spaced_cons_append, spaced_nil, String.empty_append] at h
    exact absurd (hr'.2 _ h.symm) (not_endsWord_append (hwords w (List.mem_cons_self ..)) _)
  | w :: words, v :: words', hwords, hwords', hr, hr', h => by
    rw [List.forall_mem_cons] at hwords hwords'
    rw [spaced_cons_append, spaced_cons_append, String.append_right_inj] at h
    obtain ⟨rfl, hrest⟩ := word_append_inj hwords.1 hwords'.1 (endsWord_spaced_append _ hr)
      (endsWord_spaced_append _ hr') h
    obtain ⟨rfl, rfl⟩ := spaced_append_inj hwords.2 hwords'.2 hr hr' hrest
    exact ⟨rfl, rfl⟩

/-! ## Lines -/

/-- A line ends at its line break. -/
theorem line_append_inj {s t : String} (hs : '\n' ∉ s.toList) (ht : '\n' ∉ t.toList)
    (h : s ++ ("\n" ++ r) = t ++ ("\n" ++ r')) : s = t ∧ r = r' := by
  have hinside : ∀ {u : String}, '\n' ∉ u.toList → ∀ c ∈ u.toList, decide (c ≠ '\n') = true := by
    intro u hu c hc
    exact decide_eq_true (ne_of_mem_of_not_mem hc hu)
  have hends : ∀ u : String, ∀ c ∈ ("\n" ++ u).toList.head?, decide (c ≠ '\n') = false := by
    intro u c hc
    rw [String.toList_append] at hc
    cases hc
    decide
  obtain ⟨hline, hrest⟩ := text_append_inj (hinside hs) (hinside ht) (hends r) (hends r') h
  exact ⟨hline, (String.append_right_inj _).1 hrest⟩

/-- Lines with a tab in front end where no further tab stands. -/
theorem lines_append_inj (hr : r.toList.head? ≠ some '\t') (hr' : r'.toList.head? ≠ some '\t') :
    ∀ {ls ls' : List String}, (∀ l ∈ ls, '\n' ∉ l.toList) → (∀ l ∈ ls', '\n' ∉ l.toList) →
      String.join (ls.map fun l => "\t" ++ l ++ "\n") ++ r =
        String.join (ls'.map fun l => "\t" ++ l ++ "\n") ++ r' → ls = ls' ∧ r = r'
  | [], [], _, _, h => by simpa using h
  | [], l :: ls, _, _, h => by
    refine absurd ?_ hr
    have hhead := congrArg (fun text => text.toList.head?) h
    simpa using hhead
  | l :: ls, [], _, _, h => by
    refine absurd ?_ hr'
    have hhead := congrArg (fun text => text.toList.head?) h.symm
    simpa using hhead
  | l :: ls, l' :: ls', hls, hls', h => by
    rw [List.forall_mem_cons] at hls hls'
    simp only [List.map_cons, String.join_cons, String.append_assoc,
      String.append_right_inj] at h
    obtain ⟨rfl, hrest⟩ := line_append_inj hls.1 hls'.1 h
    simp only [← String.append_assoc] at hrest
    obtain ⟨rfl, rfl⟩ := lines_append_inj hr hr' hls.2 hls'.2 hrest
    exact ⟨rfl, rfl⟩

end Text
end WireSchema
