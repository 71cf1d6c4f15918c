import WireSchema.Json.Decoder
import WireSchema.Proofs.Json.Refusal

/-!
# Decoders that read written values

`Decoder.Reads` says that a decoder reads a value as something: from its tree, and from its
text, whatever follows it, as long as enough containers may be opened; otherwise the text is
refused.  There is one lemma for every combinator, which gives what it reads from what its
parts read; so what a decoder reads is found along its description.

A record is filled by the entries of an object one after another (`Shape.Fills`), and its
members may have been given or not (`Member.Reads`).
-/

namespace WireSchema
namespace Json
namespace Decoder

variable {α β γ δ ε : Type}

/-- A decoder reads a value as `x`, or refuses its text if it is nested too deep.  The value is
plain, so that it can also be read where no shape is asked for. -/
structure Reads (d : Decoder α) (j : Json) (x : α) : Prop where
  plain : j.Plain
  ofTree : d.ofTree j = .ok x
  read : ∀ budget, j.nesting ≤ budget → (d.read budget).Takes j x
  refuses : ∀ budget, budget < j.nesting → (d.read budget).Refuses j

/-! ## Plain values -/

theorem takes_readScalar {starts : Char → Bool} {wanted : Wanted} {take : Json → Except Cause α}
    {j : Json} (hj : j.Plain) (hnesting : j.nesting = 0)
    (hstarts : ∀ c ∈ j.chars.head?, starts c = true) {x : α} (htake : take j = .ok x)
    (budget : Nat) : (readScalar starts wanted take budget).Takes j x := by
  intro r hr
  have hscalar := scalar_chars hj hnesting hr
  have hblanks := skipBlanks_chars j r
  obtain ⟨c, cs, hchars, -⟩ := j.exists_chars_eq_cons
  rw [hchars, List.cons_append] at hscalar hblanks ⊢
  have hstart : starts c = true := hstarts c (by rw [hchars]; rfl)
  rw [readScalar, hblanks]
  simp only [hstart, if_true, Scan.here, hscalar, htake, Except.mapError, bind, Except.bind, pure,
    Except.pure]

theorem reads_bool (b : Bool) : bool.Reads (.bool b) b := by
  have htake : boolOfTree (.bool b) = .ok b := rfl
  refine ⟨.bool b, htake, fun budget _ => takes_readScalar (.bool b) rfl ?_ htake budget,
    fun _ h => absurd h (Nat.not_lt_zero _)⟩
  cases b <;>
  · rintro _ ⟨⟩
    rfl

theorem reads_text (s : String) : text.Reads (.text s) s := by
  have htake : textOfTree (.text s) = .ok s := rfl
  refine ⟨.text s, htake, fun budget _ => takes_readScalar (.text s) rfl ?_ htake budget,
    fun _ h => absurd h (Nat.not_lt_zero _)⟩
  rintro _ ⟨⟩
  rfl

theorem reads_signed {i : Int} (h : IsSigned i) : signed.Reads (.int i) i := by
  have htake : wholeOfTree .signed Numeral.minInt64 Numeral.maxInt64 (.int i) = .ok i := if_pos h
  refine ⟨.int h, htake, fun budget _ => takes_readScalar (.int h) rfl ?_ htake budget,
    fun _ h => absurd h (Nat.not_lt_zero _)⟩
  intro c hc
  rw [chars] at hc
  rw [Decimal.intText] at hc
  split at hc
  · cases hc
    rfl
  · obtain ⟨c', hc', hdigit⟩ := Decimal.head?_digitsText i.natAbs
    obtain rfl := Option.mem_unique hc hc'
    simp [hdigit]

theorem Reads.map {d : Decoder α} {j : Json} {x : α} (h : d.Reads j x) (f : α → β) :
    (d.map f).Reads j (f x) where
  plain := h.plain
  ofTree := congrArg (Except.map f) h.ofTree
  read budget hnesting r hr := by
    simp only [Decoder.map, h.read budget hnesting r hr, bind, Except.bind, pure, Except.pure]
  refuses budget hnesting r hr := bind_refused (h.refuses budget hnesting r hr)

/-- What is not absent is read as what it is. -/
theorem optional_read_chars {d : Decoder α} {j : Json} (hplain : j.Plain) (hj : j ≠ .null)
    (budget : Nat) (r : List Char) :
    d.optional.read budget (j.chars ++ r) =
      (d.read budget (j.chars ++ r) >>= fun p => .ok (some p.1, p.2)) := by
  have hblanks := skipBlanks_chars j r
  obtain ⟨c, cs, hchars, hlead⟩ := j.exists_chars_eq_cons
  rw [hchars, List.cons_append] at hblanks ⊢
  have hc : c ≠ 'n' := by
    rintro rfl
    cases hplain <;> grind [lead, leadOf, isNumberChar]
  simp only [Decoder.optional, hblanks]
  split
  · next heq => exact absurd (List.cons.inj heq).1 hc
  · rfl

theorem Reads.optional {d : Decoder α} {j : Json} {x : α} (h : d.Reads j x) (hj : j ≠ .null) :
    d.optional.Reads j (some x) where
  plain := h.plain
  ofTree := by
    have htree := h.ofTree
    cases j with
    | null => exact absurd rfl hj
    | _ => simp only [Decoder.optional, htree, Except.map]
  read budget hnesting r hr := by
    rw [optional_read_chars h.plain hj, h.read budget hnesting r hr]
    rfl
  refuses budget hnesting r hr := by
    rw [optional_read_chars h.plain hj]
    exact bind_refused (h.refuses budget hnesting r hr)

/-! ## Lists and entries -/

theorem mapM_eq_ok {f : α → Except Cause β} {xs : List α} {ys : List β}
    (h : List.Forall₂ (fun x y => f x = .ok y) xs ys) : xs.mapM f = .ok ys := by
  induction h with
  | nil => rfl
  | cons hfirst _ ih =>
    rw [List.mapM_cons, hfirst, ih]
    rfl

/-- What is related to a list one by one is related to each of its members. -/
theorem exists_of_mem_forall₂ {R : α → β → Prop} {xs : List α} {ys : List β}
    (h : List.Forall₂ R xs ys) {x : α} (hx : x ∈ xs) : ∃ y, R x y := by
  induction h with
  | nil => cases hx
  | cons hfirst _ ih =>
    rcases List.mem_cons.1 hx with rfl | hx
    · exact ⟨_, hfirst⟩
    · exact ih hx

theorem plain_of_forall₂ {d : Decoder α} {js : List Json} {xs : List α}
    (h : List.Forall₂ d.Reads js xs) : ∀ j ∈ js, j.Plain := by
  intro j hj
  obtain ⟨x, hx⟩ := exists_of_mem_forall₂ h hj
  exact hx.plain

theorem Reads.list {d : Decoder α} {js : List Json} {xs : List α}
    (h : List.Forall₂ d.Reads js xs) : d.list.Reads (.list js) xs where
  plain := .list (plain_of_forall₂ h)
  ofTree := mapM_eq_ok (h.imp fun _ _ => Reads.ofTree)
  read budget hnesting r _ := by
    rw [nesting] at hnesting
    obtain ⟨budget, rfl, hitem⟩ := exists_budget hnesting
    have hitems : List.Forall₂ (d.read budget).Takes js xs :=
      ((List.forall₂_and_left js xs).2
        ⟨fun j hj => (nesting_le_itemNesting hj).trans hitem, h⟩).imp fun j x hx =>
          hx.2.read budget hx.1
    rw [chars, List.cons_append, List.append_assoc]
    exact listBody_chars hitems r
  refuses budget hnesting r _ := by
    rw [nesting] at hnesting
    cases budget with
    | zero => exact ⟨_, rfl⟩
    | succ budget =>
      rw [chars, List.cons_append, List.append_assoc]
      refine listBody_refused (takesUntil_of_nesting (fun j hj hn => ?_) (fun j hj hn => ?_)
        (Nat.lt_of_succ_lt_succ hnesting)) r
      · obtain ⟨x, hx⟩ := exists_of_mem_forall₂ h hj
        exact ⟨x, hx.read budget hn⟩
      · obtain ⟨x, hx⟩ := exists_of_mem_forall₂ h hj
        exact hx.refuses budget hn

/-- An entry of an object is read as a key and what its value is read as. -/
def ReadsEntry (key : String → Except Cause β) (d : Decoder α) (e : String × Json) (x : β × α) :
    Prop :=
  key e.1 = .ok x.1 ∧ d.Reads e.2 x.2

theorem plain_of_readsEntry {key : String → Except Cause β} {d : Decoder α}
    {es : List (String × Json)} {xs : List (β × α)} (h : List.Forall₂ (ReadsEntry key d) es xs) :
    (Json.object es).Plain :=
  .object fun e he => by
    obtain ⟨x, -, hx⟩ := exists_of_mem_forall₂ h he
    exact hx.plain

theorem takes_of_readsEntry {key : String → Except Cause β} {d : Decoder α}
    {es : List (String × Json)} {xs : List (β × α)} (h : List.Forall₂ (ReadsEntry key d) es xs)
    {budget : Nat} (hnesting : entryNesting es ≤ budget) :
    List.Forall₂ (fun e x => key e.1 = .ok x.1 ∧ (d.read budget).Takes e.2 x.2) es xs :=
  ((List.forall₂_and_left es xs).2
    ⟨fun _ he => (nesting_le_entryNesting he).trans hnesting, h⟩).imp fun _ _ hx =>
      ⟨hx.2.1, hx.2.2.read budget hx.1⟩

/-- An object is read by the loop over its entries. -/
theorem takes_readObject {body : Nat → PathScan α} {es : List (String × Json)} {x : α}
    {budget : Nat} (hnesting : (Json.object es).nesting ≤ budget)
    (h : ∀ budget, entryNesting es ≤ budget → ∀ r,
      body budget (entryChars es ++ '\x7d' :: r) = .ok (x, r)) :
    (readObject body budget).Takes (.object es) x := by
  intro r _
  rw [nesting] at hnesting
  obtain ⟨budget, rfl, hentry⟩ := exists_budget hnesting
  rw [chars, List.cons_append, List.append_assoc]
  exact h budget hentry r

/-- An object that is nested too deep is refused, at its brace or by the loop. -/
theorem readObject_refuses {body : Nat → PathScan α} {es : List (String × Json)} {budget : Nat}
    (hnesting : budget < (Json.object es).nesting)
    (h : ∀ budget, budget < entryNesting es → ∀ r,
      ∃ fault, body budget (entryChars es ++ '\x7d' :: r) = .error fault) :
    (readObject body budget).Refuses (.object es) := by
  intro r _
  rw [nesting] at hnesting
  cases budget with
  | zero => exact ⟨_, rfl⟩
  | succ budget =>
    rw [chars, List.cons_append, List.append_assoc]
    exact h budget (Nat.lt_of_succ_lt_succ hnesting) r

theorem Reads.entries {d : Decoder α} {es : List (String × Json)} {xs : List (String × α)}
    (h : List.Forall₂ (ReadsEntry .ok d) es xs) : (Decoder.entries d).Reads (.object es) xs where
  plain := plain_of_readsEntry h
  ofTree := mapM_eq_ok (h.imp fun e x hx => by
    have hkey : e.1 = x.1 := Except.ok.inj hx.1
    simp only [hkey, hx.2.ofTree, bind, Except.bind, pure, Except.pure])
  read budget hnesting := takes_readObject hnesting fun budget hnesting r =>
    entriesBody_chars ((takes_of_readsEntry h hnesting).imp fun _ _ hx =>
      ⟨Except.ok.inj hx.1, hx.2⟩) r
  refuses budget hnesting := readObject_refuses hnesting fun budget hnesting r => by
    refine entriesBody_refused (fun e he hn => ?_) (fun e he hn => ?_) hnesting r
    · obtain ⟨x, -, hx⟩ := exists_of_mem_forall₂ h he
      exact ⟨x.2, hx.read budget hn⟩
    · obtain ⟨x, -, hx⟩ := exists_of_mem_forall₂ h he
      exact hx.refuses budget hn

theorem Reads.entriesUnder {keys : List (String × β)} {d : Decoder α}
    {es : List (String × Json)} {xs : List (β × α)}
    (h : List.Forall₂ (ReadsEntry (caseOf keys) d) es xs) :
    (Decoder.entriesUnder keys d).Reads (.object es) xs where
  plain := plain_of_readsEntry h
  ofTree := mapM_eq_ok (h.imp fun e x hx => by
    simp only [hx.1, hx.2.ofTree, bind, Except.bind, pure, Except.pure])
  read budget hnesting := takes_readObject hnesting fun budget hnesting r => by
    simp only
    rw [objectBody_collect _ (takes_of_readsEntry h hnesting) r]
    · simp only [bind, Except.bind, pure, Except.pure, List.reverse_reverse]
    · rintro acc e x ⟨hkey, htaken⟩
      refine ⟨_, by rw [hkey]; rfl, fun r hr => ?_⟩
      simp only [htaken r hr, bind, Except.bind, pure, Except.pure]
  refuses budget hnesting := readObject_refuses hnesting fun budget hnesting r => by
    refine bind_refused (objectBody_refused (entersUntil_of_nesting (fun e he hn acc => ?_)
      (fun e he hn acc => ?_) hnesting) r)
    · obtain ⟨x, hkey, hx⟩ := exists_of_mem_forall₂ h he
      refine ⟨_, x :: acc, by rw [hkey]; rfl, fun r hr => ?_⟩
      simp only [hx.read budget hn r hr, bind, Except.bind, pure, Except.pure]
    · obtain ⟨x, hkey, hx⟩ := exists_of_mem_forall₂ h he
      exact ⟨_, by rw [hkey]; rfl, fun r hr => bind_refused (hx.refuses budget hn r hr)⟩

/-! ## Records -/

section

variable {σ : Type}

/-- The entries of an object lead a record from one state to another: each of them gives a
member that has not been given before. -/
inductive Shape.Fills (shape : Shape σ α) : σ → List (String × Json) → σ → Prop
  | nil (acc : σ) : Fills shape acc [] acc
  | cons {acc acc' : σ} {key : String} {j : Json} {es : List (String × Json)} {slot : Slot σ}
      {set : σ → σ} (found : shape.slots.find? (fun slot => slot.name = key) = some slot)
      (unfilled : slot.isFilled acc = false) (reads : slot.fill.Reads j set)
      (rest : Fills shape (set acc) es acc') : Fills shape acc ((key, j) :: es) acc'

/-- A member that has not been given before is taken into account. -/
theorem Shape.enter_eq {shape : Shape σ α} {acc : σ} {key : String} {slot : Slot σ}
    (hfound : shape.slots.find? (fun slot => slot.name = key) = some slot)
    (hunfilled : slot.isFilled acc = false) {j : Json} {set : σ → σ}
    (hreads : slot.fill.Reads j set) {budget : Nat} (hnesting : j.nesting ≤ budget) :
    ∃ entry, shape.enter budget acc key = .ok entry ∧ entry.scan.Takes j (set acc) := by
  rw [enter, hfound]
  simp only [hunfilled, Bool.false_eq_true, if_false]
  refine ⟨_, rfl, fun r hr => ?_⟩
  simp only [hreads.read budget hnesting r hr, bind, Except.bind, pure, Except.pure]

/-- A member that has not been given before is refused with its value. -/
theorem Shape.enter_refused {shape : Shape σ α} {acc : σ} {key : String} {slot : Slot σ}
    (hfound : shape.slots.find? (fun slot => slot.name = key) = some slot)
    (hunfilled : slot.isFilled acc = false) {j : Json} {set : σ → σ}
    (hreads : slot.fill.Reads j set) {budget : Nat} (hnesting : budget < j.nesting) :
    ∃ entry, shape.enter budget acc key = .ok entry ∧ entry.scan.Refuses j := by
  rw [enter, hfound]
  simp only [hunfilled, Bool.false_eq_true, if_false]
  exact ⟨_, rfl, fun r hr => bind_refused (hreads.refuses budget hnesting r hr)⟩

namespace Shape.Fills

variable {shape : Shape σ α} {acc acc' : σ} {es : List (String × Json)}

theorem plain (h : shape.Fills acc es acc') : ∀ e ∈ es, e.2.Plain := by
  induction h with
  | nil => exact fun _ he => by cases he
  | cons _ _ hreads _ ih => exact List.forall_mem_cons.2 ⟨hreads.plain, ih⟩

theorem fillByKey (h : shape.Fills acc es acc') : shape.fillByKey acc es = .ok acc' := by
  induction h with
  | nil => rfl
  | cons hfound hunfilled hreads _ ih =>
    rw [Shape.fillByKey, hfound]
    simp only [hunfilled, Bool.false_eq_true, if_false, hreads.ofTree, bind, Except.bind, ih]

theorem entersAll (h : shape.Fills acc es acc') {budget : Nat}
    (hnesting : entryNesting es ≤ budget) : EntersAll (shape.enter budget) acc es acc' := by
  induction h with
  | nil acc => exact .nil acc
  | cons hfound hunfilled hreads _ ih =>
    rw [entryNesting] at hnesting
    obtain ⟨entry, hentry, htaken⟩ := enter_eq hfound hunfilled hreads
      ((Nat.le_max_left ..).trans hnesting)
    exact .cons hentry htaken (ih ((Nat.le_max_right ..).trans hnesting))

theorem entersUntil (h : shape.Fills acc es acc') {budget : Nat}
    (hnesting : budget < entryNesting es) : EntersUntil (shape.enter budget) acc es := by
  induction h with
  | nil => cases hnesting
  | cons hfound hunfilled hreads _ ih =>
    rename_i key j es slot set _
    by_cases hj : j.nesting ≤ budget
    · obtain ⟨entry, hentry, htaken⟩ := enter_eq hfound hunfilled hreads hj
      rw [entryNesting, lt_max_iff] at hnesting
      exact .cons hentry htaken (ih (hnesting.resolve_left hj.not_gt))
    · obtain ⟨entry, hentry, hrefused⟩ :=
        enter_refused hfound hunfilled hreads (Nat.lt_of_not_le hj)
      exact .refused hentry hrefused

/-- **A record is read from an object that fills it.** -/
theorem reads (acc : σ) (h : shape.Fills shape.start es acc) {x : α}
    (hfinish : shape.finish acc = .ok x) : (ofShape shape).Reads (.object es) x where
  plain := .object h.plain
  ofTree := by
    simp only [ofShape, Shape.ofTree, h.fillByKey, bind, Except.bind, hfinish, pure, Except.pure]
  read budget hnesting r _ := by
    rw [nesting] at hnesting
    obtain ⟨budget, rfl, hentry⟩ := exists_budget hnesting
    have hbody := objectBody_chars (h.entersAll hentry) r
    have hbrace : isBlank '\x7b' = false := by decide
    rw [chars, List.cons_append, List.append_assoc, List.singleton_append]
    simp only [ofShape, Shape.read, skipBlanks_cons hbrace, Shape.read.byKey, hbody, bind,
      Except.bind, hfinish, pure, Except.pure]
  refuses budget hnesting r _ := by
    rw [nesting] at hnesting
    cases budget with
    | zero => exact ⟨_, rfl⟩
    | succ budget =>
      rw [chars, List.cons_append, List.append_assoc]
      exact bind_refused
        (objectBody_refused (h.entersUntil (Nat.lt_of_succ_lt_succ hnesting)) r)

end Shape.Fills

/-! ### Members -/

/-- A member is read as `x` from its value if it is given, and otherwise stands for `x`. -/
def Member.Reads (m : Member α) : Option Json → α → Prop
  | some j, x => m.decoder.Reads j x
  | none, x => m.fallback = some x

theorem Member.Reads.of {m : Member α} {j : Json} {x : α} (h : m.decoder.Reads j x) :
    m.Reads (some j) x :=
  h

theorem reads_absentable {name : String} {d : Decoder α} {toJson : α → Json} {x : Option α}
    (h : ∀ y, x = some y → d.Reads (toJson y) y ∧ toJson y ≠ .null) :
    (absentable name d).Reads (x.map toJson) x := by
  cases x with
  | none => rfl
  | some y =>
    obtain ⟨hreads, hnull⟩ := h y rfl
    exact hreads.optional hnull

/-- The value of a member as a record keeps it. -/
def kept (j : Option Json) (x : α) : Option α :=
  j.map fun _ => x

theorem Member.Reads.get {m : Member α} {j : Option Json} {x : α} (h : m.Reads j x) :
    m.get (kept j x) = .ok x := by
  cases j with
  | none =>
    have hfallback : m.fallback = some x := h
    simp only [Member.get, kept, Option.map_none, hfallback]
  | some j => rfl

/-- The entries of the members that are given. -/
def given (members : List (String × Option Json)) : List (String × Json) :=
  members.filterMap fun m => m.2.map fun j => (m.1, j)

theorem find?_name_of_nodup {slots : List (Slot σ)} (hnames : (slots.map Slot.name).Nodup)
    {slot : Slot σ} (h : slot ∈ slots) :
    slots.find? (fun s => s.name = slot.name) = some slot := by
  cases hfound : slots.find? fun s => s.name = slot.name with
  | none => exact absurd (decide_eq_true rfl) (List.find?_eq_none.1 hfound slot h)
  | some s =>
    have hnamed := List.find?_some hfound
    have hname : s.name = slot.name := of_decide_eq_true hnamed
    rw [List.inj_on_of_nodup_map hnames (List.mem_of_find?_eq_some hfound) h hname]

/-- A record is filled by its members one after another. -/
theorem Shape.Fills.member {shape : Shape σ β} {m : Member α} {get : σ → Option α}
    {set : α → σ → σ} {j : Option Json} {x : α} {members : List (String × Option Json)}
    {acc acc'' : σ} (acc' : σ) (hnames : (shape.slots.map Slot.name).Nodup)
    (hslot : m.slot get set ∈ shape.slots) (hunfilled : get acc = none)
    (hstep : acc' = match j with | some _ => set x acc | none => acc) (h : m.Reads j x)
    (hrest : shape.Fills acc' (given members) acc'') :
    shape.Fills acc (given ((m.name, j) :: members)) acc'' := by
  subst hstep
  cases j with
  | none => exact hrest
  | some j =>
    have hreads : m.decoder.Reads j x := h
    have hfree : (m.slot get set).isFilled acc = false := by
      simp only [Member.slot, hunfilled, Option.isSome_none]
    refine .cons ?_ hfree (hreads.map set) hrest
    exact find?_name_of_nodup hnames hslot

end

section

variable {name : String} {a : Member α} {b : Member β} {c : Member γ} {d : Member δ}
  {ja jb jc jd : Option Json} {x : α} {y : β} {z : γ} {w : δ}

theorem reads_record1 {make : α → β} (ha : a.Reads ja x) :
    (record1 name a make).Reads (.object (given [(a.name, ja)])) (make x) := by
  refine Shape.Fills.reads (kept ja x) ?fills ?finish
  case fills =>
    exact .member (kept ja x) (List.nodup_singleton _) (List.mem_cons_self ..) rfl
      (by cases ja <;> rfl) ha (.nil _)
  case finish => simp only [ha.get, bind, Except.bind, pure, Except.pure]

theorem reads_record2 {make : α → β → γ} (hnames : [a.name, b.name].Nodup) (ha : a.Reads ja x)
    (hb : b.Reads jb y) :
    (record2 name a b make).Reads (.object (given [(a.name, ja), (b.name, jb)])) (make x y) := by
  refine Shape.Fills.reads (kept ja x, kept jb y) ?fills ?finish
  case fills =>
    refine .member (kept ja x, none) hnames (List.mem_cons_self ..) rfl
      (by cases ja <;> rfl) ha ?_
    exact .member (kept ja x, kept jb y) hnames (List.mem_cons_of_mem _ (List.mem_cons_self ..)) rfl
      (by cases jb <;> rfl) hb (.nil _)
  case finish => simp only [ha.get, hb.get, bind, Except.bind, pure, Except.pure]

theorem reads_record3 {make : α → β → γ → δ} (hnames : [a.name, b.name, c.name].Nodup)
    (ha : a.Reads ja x) (hb : b.Reads jb y) (hc : c.Reads jc z) :
    (record3 name a b c make).Reads
      (.object (given [(a.name, ja), (b.name, jb), (c.name, jc)])) (make x y z) := by
  refine Shape.Fills.reads (kept ja x, kept jb y, kept jc z) ?fills ?finish
  case fills =>
    refine .member (kept ja x, none, none) hnames (List.mem_cons_self ..) rfl
      (by cases ja <;> rfl) ha ?_
    refine .member (kept ja x, kept jb y, none) hnames
      (List.mem_cons_of_mem _ (List.mem_cons_self ..)) rfl (by cases jb <;> rfl) hb ?_
    exact .member (kept ja x, kept jb y, kept jc z) hnames
      (List.mem_cons_of_mem _ (List.mem_cons_of_mem _ (List.mem_cons_self ..))) rfl
      (by cases jc <;> rfl) hc (.nil _)
  case finish => simp only [ha.get, hb.get, hc.get, bind, Except.bind, pure, Except.pure]

theorem reads_record4 {make : α → β → γ → δ → ε}
    (hnames : [a.name, b.name, c.name, d.name].Nodup) (ha : a.Reads ja x) (hb : b.Reads jb y)
    (hc : c.Reads jc z) (hd : d.Reads jd w) :
    (record4 name a b c d make).Reads
      (.object (given [(a.name, ja), (b.name, jb), (c.name, jc), (d.name, jd)]))
      (make x y z w) := by
  refine Shape.Fills.reads (kept ja x, kept jb y, kept jc z, kept jd w) ?fills ?finish
  case fills =>
    refine .member (kept ja x, none, none, none) hnames (List.mem_cons_self ..) rfl
      (by cases ja <;> rfl) ha ?_
    refine .member (kept ja x, kept jb y, none, none) hnames
      (List.mem_cons_of_mem _ (List.mem_cons_self ..)) rfl (by cases jb <;> rfl) hb ?_
    refine .member (kept ja x, kept jb y, kept jc z, none) hnames
      (List.mem_cons_of_mem _ (List.mem_cons_of_mem _ (List.mem_cons_self ..))) rfl
      (by cases jc <;> rfl) hc ?_
    exact .member (kept ja x, kept jb y, kept jc z, kept jd w) hnames
      (List.mem_cons_of_mem _ (List.mem_cons_of_mem _ (List.mem_cons_of_mem _
        (List.mem_cons_self ..)))) rfl (by cases jd <;> rfl) hd (.nil _)
  case finish =>
    simp only [ha.get, hb.get, hc.get, hd.get, bind, Except.bind, pure, Except.pure]

end

/-! ## Choices -/

theorem reads_emptyPayload (choice caseName : String) (x : α) :
    (emptyPayload choice caseName x).Reads (.object []) x where
  plain := .object fun _ he => by cases he
  ofTree := rfl
  read budget hnesting r _ := by
    rw [nesting] at hnesting
    obtain ⟨budget, rfl, -⟩ := exists_budget hnesting
    rfl
  refuses budget hnesting r _ := by
    obtain rfl : budget = 0 := Nat.lt_one_iff.1 hnesting
    exact ⟨_, rfl⟩

theorem caseKey_textChars (name : String) (r : List Char) :
    readChoice.caseKey (textChars name ++ r) = .ok (name, r) := by
  have hscan : readChoice.caseKey ('"' :: (name.toList.flatMap escape ++ '"' :: r)) =
      Scan.here scanText (name.toList.flatMap escape ++ '"' :: r) := rfl
  rw [textChars_append, hscan, Scan.here, scanText_escapes]
  rfl

/-- **A choice is read from its case.** -/
theorem Reads.choice {cases : List (String × Payload α)} {name : String} {payload : Payload α}
    (hcase : caseOf cases name = .ok payload) {choiceName : String} {j : Json} {x : α}
    (h : (payload.decoder choiceName).Reads j x) :
    (Decoder.choice choiceName cases).Reads (.object [(name, j)]) x where
  plain := .object (List.forall_mem_singleton.2 h.plain)
  ofTree := by
    simp only [Decoder.choice, choiceOfTree, hcase, bind, Except.bind, h.ofTree]
  read budget hnesting r _ := by
    rw [nesting] at hnesting
    obtain ⟨budget, rfl, hentry⟩ := exists_budget hnesting
    have hpayload : j.nesting ≤ budget :=
      (nesting_le_entryNesting (List.mem_singleton_self (name, j))).trans hentry
    have htaken := h.read budget hpayload ('\x7d' :: r) (endsValue_brace r)
    have hcolon : colon (':' :: (j.chars ++ '\x7d' :: r)) = .ok (j.chars ++ '\x7d' :: r) := rfl
    have hbrace : isBlank '\x7b' = false := by decide
    rw [chars, entryChars, List.cons_append, List.append_assoc, List.append_assoc]
    simp only [Decoder.choice, readChoice, skipBlanks_cons hbrace, caseKey_textChars,
      List.cons_append, List.nil_append, bind, Except.bind, hcase, Except.mapError, hcolon,
      PathScan.within_of_ok htaken]
    rfl
  refuses budget hnesting r _ := by
    rw [nesting] at hnesting
    cases budget with
    | zero => exact ⟨_, rfl⟩
    | succ budget =>
      have hpayload : budget < j.nesting := by
        simp only [entryNesting] at hnesting
        omega
      obtain ⟨fault, hfault⟩ := (h.refuses budget hpayload).within (.key name) ('\x7d' :: r)
        (endsValue_brace r)
      have hcolon : colon (':' :: (j.chars ++ '\x7d' :: r)) = .ok (j.chars ++ '\x7d' :: r) := rfl
      have hbrace : isBlank '\x7b' = false := by decide
      refine ⟨fault, ?_⟩
      rw [chars, entryChars, List.cons_append, List.append_assoc, List.append_assoc]
      simp only [Decoder.choice, readChoice, skipBlanks_cons hbrace, caseKey_textChars,
        List.cons_append, List.nil_append, bind, Except.bind, hcase, Except.mapError, hcolon,
        hfault]

/-! ## Parts that could be several things -/

theorem reads_untagged {name : String} {fits : Json → Option α} {j : Json} {x : α}
    (hj : j.Plain) (hfits : fits j = some x) : (untagged name fits).Reads j x where
  plain := hj
  ofTree := by simp only [untagged, hfits]
  read budget hnesting r hr := by
    have hread := value_chars hj hnesting r hr
    simp only [untagged, hread, bind, Except.bind, hfits, pure, Except.pure]
  refuses budget hnesting r hr := bind_refused (value_refuses hj hnesting r hr)

/-! ## Documents -/

/-- **What a decoder reads a value as is what the text of the value says.** -/
theorem Reads.decode {d : Decoder α} {j : Json} {x : α} (h : d.Reads j x)
    (hnesting : j.nesting ≤ nestingLimit) : Json.decode d j.compact = .ok x := by
  have hread := h.read nestingLimit hnesting [] endsValue_nil
  rw [List.append_nil] at hread
  rw [Json.decode, document, compact, String.toList_ofList, hread]
  rfl

/-- **A text that is nested deeper than documents may be is refused.** -/
theorem Reads.decode_refused {d : Decoder α} {j : Json} {x : α} (h : d.Reads j x)
    (hnesting : nestingLimit < j.nesting) : ∃ fault, Json.decode d j.compact = .error fault := by
  have hrefused := h.refuses nestingLimit hnesting [] endsValue_nil
  rw [List.append_nil] at hrefused
  rw [Json.decode, document, compact, String.toList_ofList]
  exact bind_refused hrefused

end Decoder
end Json
end WireSchema
