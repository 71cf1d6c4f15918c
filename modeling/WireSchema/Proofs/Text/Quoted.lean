import WireSchema.Proofs.Text.Prefix
import WireSchema.Text.Quoted

/-!
# Quoted texts can be read back

A quoted text ends at the first quote that is not escaped, and every character is read back from
its escape; a code point between braces ends at the closing brace, which is no hexadecimal digit.
So a quoted text in front of something else says what the text is (`quoted_append_inj`), and so
does a list of quoted texts (`quotedList_injective`): the list goes on where a comma stands and
ends at the bracket.

No line break stands between quotes (`newline_notMem_quotedChars`), which makes quoted texts fit
for a line of their own.
-/

namespace WireSchema
namespace Text

/-! ## Hexadecimal digits -/

/-- The number that lower-case hexadecimal digits stand for. -/
def hexValue (cs : List Char) : Nat :=
  cs.foldl (fun n c => 16 * n + if c.isDigit then c.toNat - 48 else c.toNat - 87) 0

theorem hexValue_hexDigits (n : Nat) : hexValue (hexDigits n) = n := by
  have hdigit : ∀ d < 16, hexValue [d.digitChar] = d := by decide
  induction n using Nat.strongRecOn with
  | ind n ih =>
    rw [hexDigits, Nat.toDigits_eq_if (by decide)]
    split
    · next h => exact hdigit n h
    · next h =>
      have hhigh := ih (n / 16) (by omega)
      have hlow := hdigit (n % 16) (by omega)
      rw [hexDigits] at hhigh
      simp only [hexValue, List.foldl_cons, List.foldl_nil] at hhigh hlow
      simp only [hexValue, List.foldl_append, List.foldl_cons, List.foldl_nil, hhigh]
      omega

theorem isAlphanum_hexDigits (n : Nat) : ∀ c ∈ hexDigits n, c.isAlphanum = true := by
  have hdigit : ∀ d < 16, d.digitChar.isAlphanum = true := by decide
  induction n using Nat.strongRecOn with
  | ind n ih =>
    rw [hexDigits, Nat.toDigits_eq_if (by decide)]
    split
    · next h => simpa using hdigit n h
    · next h =>
      refine List.forall_mem_append.2 ⟨ih (n / 16) (by omega), ?_⟩
      simpa using hdigit (n % 16) (by omega)

/-! ## Escapes -/

/-- The first character of what stands inside quotes, read back from its escape; none at the
closing quote. -/
def unescape : List Char → Option (Char × List Char)
  | '\\' :: '"' :: r => some ('"', r)
  | '\\' :: '\\' :: r => some ('\\', r)
  | '\\' :: '0' :: r => some ('\x00', r)
  | '\\' :: 't' :: r => some ('\t', r)
  | '\\' :: 'r' :: r => some ('\r', r)
  | '\\' :: 'n' :: r => some ('\n', r)
  | '\\' :: 'u' :: '\x7b' :: r =>
      some (Char.ofNat (hexValue (r.takeWhile (· ≠ '\x7d'))), (r.dropWhile (· ≠ '\x7d')).drop 1)
  | '"' :: _ => none
  | c :: r => some (c, r)
  | [] => none

theorem unescape_escape (c : Char) (r : List Char) : unescape (escape c ++ r) = some (c, r) := by
  rw [escape]
  split
  · next h => rw [h]; rfl
  split
  · next h => rw [h]; rfl
  split
  · next h => rw [h]; rfl
  split
  · next h => rw [h]; rfl
  split
  · next h => rw [h]; rfl
  split
  · next h => rw [h]; rfl
  split
  · have hbrace : ∀ d ∈ hexDigits c.toNat, decide (d ≠ '\x7d') = true := by
      intro d hd
      have halphanum := isAlphanum_hexDigits c.toNat d hd
      rw [decide_eq_true_iff]
      rintro rfl
      exact absurd halphanum (by decide)
    simp only [List.append_assoc, List.cons_append, List.nil_append, unescape,
      List.takeWhile_append_of_pos hbrace, List.dropWhile_append_of_pos hbrace]
    simp [hexValue_hexDigits]
  · next hquote hbackslash _ _ _ _ _ =>
    rw [List.singleton_append, unescape.eq_def]
    split <;> simp_all

theorem newline_notMem_escape (c : Char) : '\n' ∉ escape c := by
  rw [escape]
  repeat' split
  all_goals try decide
  · simp only [List.mem_append, not_or]
    exact ⟨⟨by decide, fun h => absurd (isAlphanum_hexDigits _ _ h) (by decide)⟩, by decide⟩
  · next h _ => simpa using Ne.symm h

/-! ## Quoted texts -/

@[simp] theorem toList_quoted (s : String) : (quoted s).toList = quotedChars s :=
  String.toList_ofList

/-- A quoted text ends at its closing quote. -/
theorem quoted_append_inj {s t r r' : String} (h : quoted s ++ r = quoted t ++ r') :
    s = t ∧ r = r' := by
  have hchars := congrArg String.toList h
  simp only [String.toList_append, toList_quoted, quotedChars, List.cons_append,
    List.append_assoc, List.nil_append] at hchars
  obtain ⟨htext, hrest⟩ :=
    escapes_append_inj unescape_escape (fun _ => rfl) (List.cons.inj hchars).2
  exact ⟨String.toList_inj.1 htext, String.toList_inj.1 hrest⟩

theorem quoted_injective {s t : String} (h : quoted s = quoted t) : s = t :=
  (quoted_append_inj (congrArg (· ++ "") h)).1

/-- A quoted text stays on its line. -/
@[simp] theorem newline_notMem_quotedChars (s : String) : '\n' ∉ quotedChars s := by
  rw [quotedChars, List.mem_cons, List.mem_append, List.mem_flatMap, not_or, not_or]
  exact ⟨by decide, fun ⟨c, _, hc⟩ => newline_notMem_escape c hc, by decide⟩

/-! ## Lists of quoted texts -/

/-- What stands behind the first text of a list, up to the bracket: a comma and a quoted text for
each that follows. -/
theorem quotedRest_injective : ∀ {ss ts : List String},
    String.join (ss.map fun s => ", " ++ quoted s) ++ "]" =
      String.join (ts.map fun t => ", " ++ quoted t) ++ "]" → ss = ts
  | [], [], _ => rfl
  | [], t :: ts, h | t :: ts, [], h => by
    have hhead := congrArg (fun text => text.toList.head?) h
    simp at hhead
  | s :: ss, t :: ts, h => by
    simp only [List.map_cons, String.join_cons, String.append_assoc,
      String.append_right_inj] at h
    obtain ⟨rfl, hrest⟩ := quoted_append_inj h
    rw [quotedRest_injective hrest]

theorem quotedList_cons (s : String) (ss : List String) :
    quotedList (s :: ss) =
      "[" ++ (quoted s ++ (String.join (ss.map fun s => ", " ++ quoted s) ++ "]")) := by
  have hrest : ∀ t : String, ", ".intercalate (t :: ss.map quoted) =
      t ++ String.join (ss.map fun s => ", " ++ quoted s) := by
    induction ss with
    | nil => intro t; simp
    | cons u us ih =>
      intro t
      rw [List.map_cons, String.intercalate_cons_cons, ih, List.map_cons, String.join_cons]
      simp only [String.append_assoc]
  rw [quotedList, List.map_cons, hrest, String.append_assoc, String.append_assoc]

/-- **A list of quoted texts says what the texts are.** -/
theorem quotedList_injective {ss ts : List String} (h : quotedList ss = quotedList ts) :
    ss = ts := by
  match ss, ts with
  | [], [] => rfl
  | [], t :: ts | t :: ts, [] =>
    rw [quotedList_cons] at h
    have hsecond := congrArg (fun text => text.toList.tail.head?) h
    simp [quotedList, quotedChars] at hsecond
  | s :: ss, t :: ts =>
    rw [quotedList_cons, quotedList_cons, String.append_right_inj] at h
    obtain ⟨rfl, hrest⟩ := quoted_append_inj h
    rw [quotedRest_injective hrest]

end Text
end WireSchema
