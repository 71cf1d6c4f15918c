import Mathlib.Tactic.Common
import WireSchema.Graph.Dot

/-!
# Reading the language of drawings: tokens

A drawing is read character by character.  The reader knows quoted texts, words, arrows and
single marks, and passes over blanks.  A quoted text goes on to the next quote that is not
escaped: a backslash with a quote behind it stands for the quote, and a backslash with anything
else behind it, a second backslash too, stands for both characters.

`DotMode` is what the reader has to remember between two characters, so that the text of a
drawing can be read piece by piece (`DotMode.Reads.append`).

## What can be written between quotes

Backslashes pair up with what is behind them, from the left.  If the partner of a backslash is a
quote, the escape that the writer puts in front of the quote becomes the partner instead, and the
quote ends the text; and a backslash without a partner takes the quote that was to end the text.
Where neither happens (`backslashesPaired`) the text is read as it was (`DotMode.reads_escaped`),
and only there (`DotMode.Reads.backslashesPaired_of_escaped`).  A text that is written without any
escapes must not have quotes in it either (`Verbatim`).
-/

namespace WireSchema

/-! ## Tokens -/

/-- A token of the language of drawings. -/
inductive DotToken where
  | quoted (text : String)
  | word (text : String)
  | arrow
  | mark (c : Char)
  deriving DecidableEq

/-- Where the reader is. -/
inductive DotMode where
  | between
  | word (seen : List Char)
  /-- Behind the first character of an arrow. -/
  | dash
  | quoted (seen : List Char)
  /-- Behind a backslash in a quoted text. -/
  | escape (seen : List Char)
  deriving DecidableEq

/-- Whether words are made of this character. -/
def isDotWord (c : Char) : Bool :=
  c.isAlphanum || c = '_'

namespace DotMode

/-- A character that no token is waiting for. -/
def start (c : Char) : Option (List DotToken × DotMode) :=
  if c = '"' then some ([], quoted [])
  else if c = '-' then some ([], dash)
  else if isDotWord c then some ([], word [c])
  else if c ∈ ['\x7b', '\x7d', '[', ']', '=', ',', ';'] then some ([.mark c], between)
  else if c = ' ' ∨ c = '\n' then some ([], between)
  else none

/-- The tokens that a character completes, and where the reader is behind it. -/
def step : DotMode → Char → Option (List DotToken × DotMode)
  | between, c => start c
  | word seen, c =>
    if isDotWord c then some ([], word (seen ++ [c]))
    else (start c).map fun r => (.word (String.ofList seen) :: r.1, r.2)
  | dash, c => if c = '>' then some ([.arrow], between) else none
  | quoted seen, c =>
    if c = '"' then some ([.quoted (String.ofList seen)], between)
    else if c = '\\' then some ([], escape seen)
    else some ([], quoted (seen ++ [c]))
  | escape seen, c => some ([], quoted (seen ++ if c = '"' then ['"'] else ['\\', c]))

/-- The tokens in a piece of text, and where the reader is behind it. -/
def run : DotMode → List Char → Option (List DotToken × DotMode)
  | m, [] => some ([], m)
  | m, c :: cs => do
    let (tokens, m) ← m.step c
    let (rest, m) ← m.run cs
    return (tokens ++ rest, m)

/-- Reading a piece of text. -/
def Reads (m : DotMode) (piece : List Char) (tokens : List DotToken) (m' : DotMode) : Prop :=
  m.run piece = some (tokens, m')

end DotMode

/-- The tokens of a text, if it does not end inside of one. -/
def dotTokens (text : String) : Option (List DotToken) :=
  match DotMode.between.run text.toList with
  | some (tokens, .between) => some tokens
  | _ => none

namespace DotMode

variable {m m' m'' : DotMode} {tokens tokens' : List DotToken} {cs cs' : List Char}

theorem reads_cons_iff {c : Char} :
    m.Reads (c :: cs) tokens m'' ↔ ∃ first m' rest,
      m.step c = some (first, m') ∧ m'.Reads cs rest m'' ∧ first ++ rest = tokens := by
  rw [Reads, run]
  simp only [Reads, Option.bind_eq_bind, Option.bind_eq_some_iff, Option.pure_def,
    Option.some.injEq, Prod.exists, Prod.mk.injEq]
  constructor
  · rintro ⟨first, m', hstep, rest, _, hrest, rfl, rfl⟩
    exact ⟨first, m', rest, hstep, hrest, rfl⟩
  · rintro ⟨first, m', rest, hstep, hrest, rfl⟩
    exact ⟨first, m', hstep, rest, m'', hrest, rfl, rfl⟩

/-- A reader goes on where it stopped. -/
theorem reads_append_iff :
    m.Reads (cs ++ cs') tokens m'' ↔ ∃ first m' rest,
      m.Reads cs first m' ∧ m'.Reads cs' rest m'' ∧ first ++ rest = tokens := by
  induction cs generalizing m tokens with
  | nil =>
    constructor
    · exact fun h => ⟨[], m, tokens, rfl, h, rfl⟩
    · rintro ⟨first, m', rest, hnil, hrest, rfl⟩
      obtain ⟨rfl, rfl⟩ := Prod.mk.inj (Option.some.inj hnil)
      exact hrest
  | cons c cs ih =>
    rw [List.cons_append, reads_cons_iff]
    simp only [reads_cons_iff, ih]
    constructor
    · rintro ⟨first, m₁, -, hstep, ⟨second, m₂, rest, hcs, hrest, rfl⟩, rfl⟩
      exact ⟨first ++ second, m₂, rest, ⟨first, m₁, second, hstep, hcs, rfl⟩, hrest,
        List.append_assoc ..⟩
    · rintro ⟨-, m₂, rest, ⟨first, m₁, second, hstep, hcs, rfl⟩, hrest, rfl⟩
      exact ⟨first, m₁, second ++ rest, hstep, ⟨second, m₂, rest, hcs, hrest, rfl⟩,
        (List.append_assoc ..).symm⟩

theorem Reads.append (h : m.Reads cs tokens m') (h' : m'.Reads cs' tokens' m'') :
    m.Reads (cs ++ cs') (tokens ++ tokens') m'' :=
  reads_append_iff.2 ⟨tokens, m', tokens', h, h', rfl⟩

theorem Reads.unique (h : m.Reads cs tokens m') (h' : m.Reads cs tokens' m'') :
    tokens = tokens' ∧ m' = m'' :=
  Prod.mk.inj (Option.some.inj (h.symm.trans h'))

/-- What is left of a piece of text begins where its first part ends. -/
theorem Reads.of_append (h : m.Reads (cs ++ cs') tokens m'') (hcs : m.Reads cs [] m') :
    m'.Reads cs' tokens m'' := by
  obtain ⟨first, next, rest, hfirst, hrest, rfl⟩ := reads_append_iff.1 h
  obtain ⟨rfl, rfl⟩ := hfirst.unique hcs
  exact hrest

/-- What has been seen of a quoted text is the beginning of a token that must come next. -/
theorem Reads.exists_quoted {seen : List Char} (hm : m = quoted seen ∨ m = escape seen)
    (h : m.Reads cs tokens between) :
    ∃ text rest, tokens = .quoted text :: rest ∧ seen <+: text.toList := by
  induction cs generalizing m seen tokens with
  | nil =>
    obtain ⟨-, rfl⟩ := Prod.mk.inj (Option.some.inj h)
    rcases hm with hm | hm <;> cases hm
  | cons c cs ih =>
    obtain ⟨first, next, rest, hstep, hrest, rfl⟩ := reads_cons_iff.1 h
    -- Short of the closing quote the reader is in a quoted text still, and has seen more of it.
    have hmore : ∀ {seen'}, first = [] → (next = quoted seen' ∨ next = escape seen') →
        seen <+: seen' →
        ∃ text rest', first ++ rest = .quoted text :: rest' ∧ seen <+: text.toList := by
      rintro seen' rfl hnext hseen
      obtain ⟨text, rest', hrest', htext⟩ := ih hnext hrest
      exact ⟨text, rest', hrest', hseen.trans htext⟩
    rcases hm with rfl | rfl
    · rw [step] at hstep
      split at hstep
      · obtain ⟨rfl, rfl⟩ := Prod.mk.inj (Option.some.inj hstep)
        have hseen : (String.ofList seen).toList = seen := String.toList_ofList
        exact ⟨String.ofList seen, rest, rfl, hseen.symm ▸ List.prefix_refl seen⟩
      · split at hstep
        · obtain ⟨rfl, rfl⟩ := Prod.mk.inj (Option.some.inj hstep)
          exact hmore rfl (.inr rfl) (List.prefix_refl seen)
        · obtain ⟨rfl, rfl⟩ := Prod.mk.inj (Option.some.inj hstep)
          exact hmore rfl (.inl rfl) (List.prefix_append ..)
    · obtain ⟨rfl, rfl⟩ := Prod.mk.inj (Option.some.inj hstep)
      exact hmore rfl (.inl rfl) (List.prefix_append ..)

end DotMode

/-! ## Quoted texts -/

/-- A text between quotes. -/
def quotedChars (text : List Char) : List Char :=
  '"' :: (text ++ ['"'])

/-- A text with a backslash in front of every quote. -/
def escapedChars (text : List Char) : List Char :=
  text.flatMap fun c => if c = '"' then ['\\', '"'] else [c]

/-- Whether every backslash has a partner behind it, counted from the left, that is no quote. -/
def backslashesPaired : List Char → Bool
  | [] => true
  | ['\\'] => false
  | '\\' :: c :: rest => c ≠ '"' && backslashesPaired rest
  | _ :: rest => backslashesPaired rest

/-- A text that can be written between quotes as it is. -/
def Verbatim (text : String) : Prop :=
  '"' ∉ text.toList ∧ backslashesPaired text.toList = true

instance (text : String) : Decidable (Verbatim text) :=
  inferInstanceAs (Decidable (_ ∧ _))

theorem escapedChars_append (text text' : List Char) :
    escapedChars (text ++ text') = escapedChars text ++ escapedChars text' :=
  List.flatMap_append

theorem escapedChars_of_notMem {text : List Char} (h : '"' ∉ text) : escapedChars text = text := by
  induction text with
  | nil => rfl
  | cons c rest ih =>
    rw [List.mem_cons, not_or] at h
    rw [escapedChars, List.flatMap_cons, if_neg (Ne.symm h.1), List.singleton_append]
    exact congrArg (c :: ·) (ih h.2)

theorem escapedChars_cons {c : Char} (h : c ≠ '"') (rest : List Char) :
    escapedChars (c :: rest) = c :: escapedChars rest := by
  rw [escapedChars, List.flatMap_cons, if_neg h]
  rfl

/-- A character that begins no pair is no backslash. -/
theorem ne_backslash {c : Char} {rest : List Char} (halone : c = '\\' → rest = [] → False)
    (hpair : ∀ d rest', c = '\\' → rest = d :: rest' → False) : c ≠ '\\' := by
  intro hc
  cases rest with
  | nil => exact halone hc rfl
  | cons d rest' => exact hpair d rest' hc rfl

theorem backslashesPaired_append {text : List Char} (h : backslashesPaired text = true)
    (after : List Char) : backslashesPaired (text ++ after) = backslashesPaired after := by
  fun_induction backslashesPaired text with
  | case1 => rfl
  | case2 => cases h
  | case3 c rest ih =>
    rw [Bool.and_eq_true] at h
    rw [List.cons_append, List.cons_append, backslashesPaired, ih h.2, h.1, Bool.true_and]
  | case4 c rest halone hpair ih =>
    have hc := ne_backslash halone hpair
    rw [List.cons_append, backslashesPaired, ih h]
    · exact fun hslash => absurd hslash hc
    · exact fun _ _ hslash => absurd hslash hc

theorem Verbatim.append {text text' : String} (h : Verbatim text) (h' : Verbatim text') :
    Verbatim (text ++ text') := by
  rw [Verbatim, String.toList_append, List.mem_append, not_or, backslashesPaired_append h.2]
  exact ⟨⟨h.1, h'.1⟩, h'.2⟩

/-- Where backslashes are not paired, a first one stands in front of a quote or at the end. -/
theorem exists_of_not_paired {text : List Char} (h : backslashesPaired text = false) :
    ∃ before, backslashesPaired before = true ∧
      (text = before ++ ['\\'] ∨ ∃ after, text = before ++ '\\' :: '"' :: after) := by
  fun_induction backslashesPaired text with
  | case1 => cases h
  | case2 => exact ⟨[], rfl, .inl rfl⟩
  | case3 c rest ih =>
    by_cases hc : c = '"'
    · exact ⟨[], rfl, .inr ⟨rest, by rw [hc]; rfl⟩⟩
    · simp only [ne_eq, hc, not_false_eq_true, decide_true, Bool.true_and] at h
      obtain ⟨before, hbefore, hplace⟩ := ih h
      refine ⟨'\\' :: c :: before, by simp [backslashesPaired, hc, hbefore], ?_⟩
      rcases hplace with rfl | ⟨after, rfl⟩
      · exact .inl rfl
      · exact .inr ⟨after, rfl⟩
  | case4 c rest halone hpair ih =>
    obtain ⟨before, hbefore, hplace⟩ := ih h
    have hc := ne_backslash halone hpair
    refine ⟨c :: before, by simp [backslashesPaired, hc, hbefore], ?_⟩
    rcases hplace with rfl | ⟨after, rfl⟩
    · exact .inl rfl
    · exact .inr ⟨after, rfl⟩

namespace DotMode

/-- A text whose backslashes are paired is read as it was before quotes were escaped. -/
theorem reads_escapedChars {text : List Char} (h : backslashesPaired text = true)
    (seen : List Char) : (quoted seen).Reads (escapedChars text) [] (quoted (seen ++ text)) := by
  fun_induction backslashesPaired text generalizing seen with
  | case1 =>
    rw [List.append_nil]
    rfl
  | case2 => cases h
  | case3 c rest ih =>
    simp only [ne_eq, Bool.and_eq_true, decide_eq_true_eq] at h
    have hpair : (quoted seen).Reads ['\\', c] [] (quoted (seen ++ ['\\', c])) := by
      simp [Reads, run, step, h.1]
    have hrest := ih h.2 (seen ++ ['\\', c])
    rw [List.append_assoc] at hrest
    rw [escapedChars_cons (by decide), escapedChars_cons h.1]
    exact hpair.append hrest
  | case4 c rest halone hpair ih =>
    have hc := ne_backslash halone hpair
    have hone : (quoted seen).Reads (escapedChars [c]) [] (quoted (seen ++ [c])) := by
      by_cases hquote : c = '"'
      · subst hquote
        rfl
      · simp [Reads, escapedChars, run, step, hc, hquote]
    have hrest := ih h (seen ++ [c])
    rw [List.append_assoc] at hrest
    exact escapedChars_append [c] rest ▸ hone.append hrest

/-- Behind paired backslashes the reader is where it was, with the text seen. -/
theorem Reads.of_escapedChars {before rest : List Char} (hbefore : backslashesPaired before = true)
    (h : between.Reads ('"' :: (escapedChars before ++ rest)) tokens m) :
    (quoted before).Reads rest tokens m := by
  have hopen : between.Reads ['"'] [] (quoted []) := rfl
  have hrest : (quoted []).Reads (escapedChars before ++ rest) tokens m :=
    Reads.of_append h hopen
  exact hrest.of_append (reads_escapedChars hbefore [])

/-- A text with paired backslashes is read as it was, if its quotes are escaped. -/
theorem reads_escaped {text : String} (h : backslashesPaired text.toList = true) :
    between.Reads (quotedChars (escapedChars text.toList)) [.quoted text] between := by
  have hopen : between.Reads ['"'] [] (quoted []) := rfl
  have hclose : (quoted text.toList).Reads ['"'] [.quoted text] between := by
    rw [← String.ofList_toList (s := text), String.toList_ofList]
    rfl
  exact hopen.append ((reads_escapedChars h []).append hclose)

/-- Only a text with paired backslashes is read as it was, if its quotes are escaped. -/
theorem Reads.backslashesPaired_of_escaped {text : String} {after : List Char}
    (h : between.Reads (quotedChars (escapedChars text.toList) ++ after)
      (.quoted text :: tokens) between) : backslashesPaired text.toList = true := by
  by_contra hnot
  obtain ⟨before, hbefore, hend | ⟨rest, hquote⟩⟩ :=
    exists_of_not_paired (Bool.eq_false_iff.2 hnot)
  · -- The last backslash takes the closing quote into the text.
    rw [quotedChars, hend, escapedChars_append, List.append_assoc, List.cons_append,
      List.append_assoc] at h
    have hopen : (quoted before).Reads ['\\', '"'] [] (quoted (before ++ ['"'])) := rfl
    have hlast : (quoted (before ++ ['"'])).Reads after (.quoted text :: tokens) between :=
      (h.of_escapedChars hbefore).of_append hopen
    obtain ⟨found, rest, htokens, hseen⟩ := hlast.exists_quoted (.inl rfl)
    obtain ⟨rfl, -⟩ := DotToken.quoted.inj (List.cons.inj htokens).1
    rw [hend, List.prefix_append_right_inj] at hseen
    cases (List.cons_prefix_cons.1 hseen).1
  · -- The backslash takes the one in front of the quote, and the quote ends the text.
    have hescaped : escapedChars ('\\' :: '"' :: rest) =
        ['\\', '\\', '"'] ++ escapedChars rest := rfl
    rw [quotedChars, hquote, escapedChars_append, hescaped, List.cons_append, List.append_assoc,
      List.append_assoc, List.append_assoc] at h
    obtain ⟨first, next, last, hpair, -, htokens⟩ := reads_append_iff.1 (h.of_escapedChars hbefore)
    have hclosed : (quoted before).Reads ['\\', '\\', '"']
        [.quoted (String.ofList (before ++ ['\\', '\\']))] between := rfl
    rw [(hpair.unique hclosed).1] at htokens
    have htext := DotToken.quoted.inj (List.cons.inj htokens).1
    rw [← htext, String.toList_ofList] at hquote
    cases List.append_cancel_left hquote

/-- A text without quotes and with paired backslashes is read as it is. -/
theorem reads_verbatim {text : String} (h : Verbatim text) :
    between.Reads (quotedChars text.toList) [.quoted text] between := by
  have hread := reads_escaped h.2
  rwa [escapedChars_of_notMem h.1] at hread

/-- A text with a quote in it is not read as it is. -/
theorem Reads.notMem_of_verbatim {text : String} {after : List Char}
    (h : between.Reads (quotedChars text.toList ++ after) (.quoted text :: tokens) between) :
    '"' ∉ text.toList := by
  intro hmem
  obtain ⟨before, rest, htext, hbefore⟩ := List.eq_append_cons_of_mem hmem
  cases hpaired : backslashesPaired before with
  | true =>
    -- The first quote ends the text.
    have hshort : Verbatim (String.ofList before) := by
      rw [Verbatim, String.toList_ofList]
      exact ⟨hbefore, hpaired⟩
    rw [quotedChars, htext] at h
    obtain ⟨first, next, last, hread, -, htokens⟩ := reads_append_iff.1
      (show between.Reads (quotedChars before ++ (rest ++ '"' :: after))
        (.quoted text :: tokens) between by simpa [quotedChars] using h)
    have hwhole := reads_verbatim hshort
    rw [String.toList_ofList] at hwhole
    rw [(hread.unique hwhole).1] at htokens
    rw [← DotToken.quoted.inj (List.cons.inj htokens).1, String.toList_ofList] at htext
    cases List.append_cancel_left ((List.append_nil before).trans htext)
  | false =>
    obtain ⟨first, hfirst, rfl | ⟨last, rfl⟩⟩ := exists_of_not_paired hpaired
    · -- The backslash in front of the first quote takes it into the text.
      rw [List.mem_append, not_or] at hbefore
      have hopen : (quoted first).Reads ['\\', '"'] [] (quoted (first ++ ['"'])) := rfl
      have hrest : between.Reads ('"' :: (escapedChars first ++
          (['\\', '"'] ++ (rest ++ '"' :: after)))) (.quoted text :: tokens) between := by
        rw [escapedChars_of_notMem hbefore.1]
        simpa [quotedChars, htext] using h
      obtain ⟨found, others, htokens, hseen⟩ :=
        ((hrest.of_escapedChars hfirst).of_append hopen).exists_quoted (.inl rfl)
      obtain rfl := DotToken.quoted.inj (List.cons.inj htokens).1
      rw [htext, List.append_assoc, List.prefix_append_right_inj] at hseen
      cases (List.cons_prefix_cons.1 hseen).1
    · exact hbefore (by simp)

/-- Only a text without quotes and with paired backslashes is read as it is. -/
theorem Reads.verbatim {text : String} {after : List Char}
    (h : between.Reads (quotedChars text.toList ++ after) (.quoted text :: tokens) between) :
    Verbatim text := by
  have hquote := h.notMem_of_verbatim
  have hescaped : between.Reads (quotedChars (escapedChars text.toList) ++ after)
      (.quoted text :: tokens) between := by
    rwa [escapedChars_of_notMem hquote]
  exact ⟨hquote, hescaped.backslashesPaired_of_escaped⟩

end DotMode
end WireSchema
