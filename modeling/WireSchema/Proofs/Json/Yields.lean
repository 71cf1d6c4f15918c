import WireSchema.Json.Decoder
import WireSchema.Proofs.Json.Gives

/-!
# What decoders yield

Whatever the text is, what a decoder reads from it is bounded by the containers that may be
opened to read it.  `Decoder.Yields` says this with a property of that number and of what is
read; the property holds on both ways, from the characters and from a tree that is nested no
deeper.  There is one lemma for every combinator, which gives what it yields from what its
parts yield, with one container less where it opens one.

A member of a record that is not given stands for its fallback, for which nothing was opened:
so a fallback has to satisfy the property at every number (`Member.Yields`).  This is where
what is written of a value may come to be nested deeper than what it was read from.
-/

namespace WireSchema
namespace Json
namespace Decoder

variable {α β γ δ ε : Type}

/-- Whatever a decoder reads has a property together with the number of containers that may
be opened to read it. -/
structure Yields (d : Decoder α) (P : Nat → α → Prop) : Prop where
  ofTree : ∀ n j x, j.nesting ≤ n → d.ofTree j = .ok x → P n x
  read : ∀ n, (d.read n).Gives (P n)

/-- What a text says according to a decoder was read within the limit of documents. -/
theorem Yields.decode {d : Decoder α} {P : Nat → α → Prop} (h : d.Yields P) {text : String}
    {x : α} (hread : Json.decode d text = .ok x) : P nestingLimit x := by
  obtain ⟨⟨y, rest⟩, hy, hread⟩ := exists_of_bind_eq_ok hread
  dsimp only at hread
  split at hread
  · cases hread
    exact h.read _ _ _ _ hy
  · cases hread

theorem Yields.imp {d : Decoder α} {P Q : Nat → α → Prop} (h : d.Yields P)
    (himp : ∀ n x, P n x → Q n x) : d.Yields Q where
  ofTree n j x hj hx := himp n x (h.ofTree n j x hj hx)
  read n cs x rest hx := himp n x (h.read n cs x rest hx)

theorem yields_true (d : Decoder α) : d.Yields fun _ _ => True where
  ofTree _ _ _ _ _ := trivial
  read _ _ _ _ _ := trivial

/-! ## Plain values -/

theorem gives_readScalar {starts : Char → Bool} {wanted : Wanted} {take : Json → Except Cause α}
    {P : α → Prop} (h : ∀ j x, take j = .ok x → P x) (n : Nat) :
    (readScalar starts wanted take n).Gives P := by
  intro cs x rest heq
  rw [readScalar] at heq
  split at heq
  · cases heq
  · split at heq
    · obtain ⟨⟨j, rest'⟩, -, heq⟩ := exists_of_bind_eq_ok (eq_ok_of_mapError heq)
      obtain ⟨y, hy, heq⟩ := exists_of_bind_eq_ok heq
      cases heq
      exact h j _ hy
    · cases heq

theorem yields_signed : signed.Yields fun _ i => IsSigned i := by
  have htake : ∀ j i, wholeOfTree .signed Numeral.minInt64 Numeral.maxInt64 j = .ok i →
      IsSigned i := by
    intro j i h
    rw [wholeOfTree.eq_def] at h
    split at h
    · split at h
      · next hbounds =>
        cases h
        exact hbounds
      · cases h
    · cases h
  exact ⟨fun _ j i _ => htake j i, gives_readScalar htake⟩

theorem Yields.map {d : Decoder α} {f : α → β} {P : Nat → β → Prop}
    (h : d.Yields fun n x => P n (f x)) : (d.map f).Yields P where
  ofTree n j y hj heq := by
    have hmap : (d.ofTree j).map f = .ok y := heq
    cases hx : d.ofTree j with
    | error cause =>
      rw [hx] at hmap
      cases hmap
    | ok x =>
      rw [hx] at hmap
      cases hmap
      exact h.ofTree n j x hj hx
  read n cs y rest heq := by
    obtain ⟨⟨x, rest'⟩, hx, heq⟩ := exists_of_bind_eq_ok heq
    cases heq
    exact h.read n cs x _ hx

theorem Yields.optional {d : Decoder α} {P : Nat → α → Prop} (h : d.Yields P) :
    d.optional.Yields fun n x => ∀ y ∈ x, P n y where
  ofTree n j x hj heq := by
    rw [Decoder.optional] at heq
    dsimp only at heq
    split at heq
    · cases heq
      nofun
    · have hsome : (d.map some).Yields fun n x => ∀ y ∈ x, P n y :=
        (h.imp fun n x hx => by rintro _ ⟨⟩; exact hx).map
      exact hsome.ofTree n _ x hj heq
  read n cs x rest heq := by
    rw [Decoder.optional] at heq
    dsimp only at heq
    split at heq
    · obtain ⟨rest', -, heq⟩ := exists_of_bind_eq_ok heq
      cases heq
      nofun
    · obtain ⟨⟨y, rest'⟩, hy, heq⟩ := exists_of_bind_eq_ok heq
      cases heq
      rintro _ ⟨⟩
      exact h.read n _ y _ hy

/-! ## Lists and entries -/

theorem mem_of_mapM_eq_ok {f : α → Except Cause β} {xs : List α} {ys : List β}
    (h : xs.mapM f = .ok ys) : ∀ y ∈ ys, ∃ x ∈ xs, f x = .ok y := by
  induction xs generalizing ys with
  | nil =>
    cases h
    nofun
  | cons x xs ih =>
    rw [List.mapM_cons] at h
    obtain ⟨y, hy, h⟩ := exists_of_bind_eq_ok h
    obtain ⟨ys', hys, h⟩ := exists_of_bind_eq_ok h
    cases h
    refine List.forall_mem_cons.2 ⟨⟨x, List.mem_cons_self .., hy⟩, fun z hz => ?_⟩
    obtain ⟨x', hx', hfx⟩ := ih hys z hz
    exact ⟨x', List.mem_cons_of_mem _ hx', hfx⟩

theorem Yields.list {d : Decoder α} {P : Nat → α → Prop} {Q : Nat → List α → Prop}
    (h : d.Yields P) (hall : ∀ n xs, (∀ x ∈ xs, P n x) → Q (n + 1) xs) : d.list.Yields Q where
  ofTree n j xs hj heq := by
    rw [Decoder.list] at heq
    dsimp only at heq
    split at heq
    · rw [nesting] at hj
      obtain ⟨n, rfl, hitem⟩ := exists_budget hj
      refine hall n xs fun x hx => ?_
      obtain ⟨j, hj, hx⟩ := mem_of_mapM_eq_ok heq x hx
      exact h.ofTree n j x (itemNesting_le.1 hitem j hj) hx
    · cases heq
  read n cs xs rest heq := by
    rw [Decoder.list] at heq
    dsimp only at heq
    split at heq
    · cases heq
    · cases heq
    · exact hall _ xs (gives_listBody (h.read _) _ _ _ heq)
    · cases heq

/-- What is read from an object is read with one container less. -/
theorem gives_readObject {body : Nat → PathScan α} {P : Nat → α → Prop}
    (h : ∀ n, (body n).Gives (P (n + 1))) (n : Nat) : (readObject body n).Gives (P n) := by
  intro cs x rest heq
  rw [readObject.eq_def] at heq
  split at heq
  · cases heq
  · cases heq
  · exact h _ _ _ _ heq
  · cases heq

theorem Yields.entries {d : Decoder α} {P : Nat → α → Prop} {Q : Nat → List (String × α) → Prop}
    (h : d.Yields P) (hall : ∀ n es, (∀ e ∈ es, P n e.2) → Q (n + 1) es) :
    (Decoder.entries d).Yields Q where
  ofTree n j es hj heq := by
    rw [Decoder.entries] at heq
    dsimp only at heq
    split at heq
    · rw [nesting] at hj
      obtain ⟨n, rfl, hentry⟩ := exists_budget hj
      refine hall n es fun e he => ?_
      obtain ⟨e', he', hpair⟩ := mem_of_mapM_eq_ok heq e he
      obtain ⟨x, hx, hpair⟩ := exists_of_bind_eq_ok hpair
      cases hpair
      exact h.ofTree n e'.2 x (entryNesting_le.1 hentry e' he') hx
    · cases heq
  read := gives_readObject fun n cs es rest heq =>
    hall n es (gives_entriesBody (h.read n) _ _ _ heq)

/-! ## Records -/

section

variable {σ : Type} {shape : Shape σ α} {I : Nat → σ → Prop} {P : Nat → α → Prop}

/-- Every slot of a record keeps up what is known of the members taken into account. -/
def Shape.Keeps (shape : Shape σ α) (I : Nat → σ → Prop) : Prop :=
  ∀ slot ∈ shape.slots, slot.fill.Yields fun n set => ∀ acc, I n acc → I n (set acc)

namespace Shape.Keeps

variable (h : shape.Keeps I)

include h

theorem gives_byKey {n : Nat} (hstart : I n shape.start) :
    (Shape.read.byKey shape n).Gives (I n) := by
  refine gives_objectBody hstart fun acc key entry hacc hentry => ?_
  rw [Shape.enter] at hentry
  split at hentry
  · cases hentry
    intro cs acc' rest heq
    obtain ⟨rest', -, heq⟩ := exists_of_bind_eq_ok heq
    cases heq
    exact hacc
  · next slot hslot =>
    split at hentry
    · cases hentry
    · cases hentry
      intro cs acc' rest heq
      obtain ⟨⟨set, rest'⟩, hset, heq⟩ := exists_of_bind_eq_ok heq
      cases heq
      exact (h slot (List.mem_of_find?_eq_some hslot)).read n _ _ _ hset acc hacc

theorem gives_positional {n : Nat} {slots : List (Slot σ)} (hslots : ∀ s ∈ slots, s ∈ shape.slots)
    (i : Nat) {acc : σ} (hacc : I n acc) :
    (Shape.positional n slots i acc).Gives fun p => I n p.1 := by
  induction slots generalizing i acc with
  | nil =>
    intro cs p rest heq
    cases heq
    exact hacc
  | cons slot slots ih =>
    obtain ⟨hslot, hslots⟩ := List.forall_mem_cons.1 hslots
    intro cs p rest heq
    rw [Shape.positional] at heq
    split at heq
    · cases heq
    · cases heq
      exact hacc
    · obtain ⟨⟨set, rest'⟩, hset, heq⟩ := exists_of_bind_eq_ok heq
      exact ih hslots (i + 1) (((h slot hslot).read n).within _ _ _ _ hset acc hacc) _ _ _ heq

theorem fillByKey {n : Nat} {acc acc' : σ} (hacc : I n acc) {es : List (String × Json)}
    (hes : entryNesting es ≤ n) (heq : shape.fillByKey acc es = .ok acc') : I n acc' := by
  induction es generalizing acc with
  | nil =>
    cases heq
    exact hacc
  | cons e es ih =>
    obtain ⟨key, j⟩ := e
    rw [entryNesting, Nat.max_le] at hes
    rw [Shape.fillByKey] at heq
    split at heq
    · exact ih hacc hes.2 heq
    · next slot hslot =>
      split at heq
      · cases heq
      · obtain ⟨set, hset, heq⟩ := exists_of_bind_eq_ok heq
        have hfill := h slot (List.mem_of_find?_eq_some hslot)
        exact ih (hfill.ofTree n j set hes.1 hset acc hacc) hes.2 heq

theorem fillInOrder {n : Nat} {acc : σ} (hacc : I n acc) {slots : List (Slot σ)}
    (hslots : ∀ s ∈ slots, s ∈ shape.slots) {js : List Json} (hjs : itemNesting js ≤ n)
    {p : σ × List Json} (heq : Shape.fillInOrder slots acc js = .ok p) : I n p.1 := by
  induction slots generalizing acc js with
  | nil =>
    cases js <;>
    · cases heq
      exact hacc
  | cons slot slots ih =>
    cases js with
    | nil =>
      cases heq
      exact hacc
    | cons j js =>
      rw [itemNesting, Nat.max_le] at hjs
      obtain ⟨hslot, hslots⟩ := List.forall_mem_cons.1 hslots
      rw [Shape.fillInOrder] at heq
      obtain ⟨set, hset, heq⟩ := exists_of_bind_eq_ok heq
      exact ih ((h slot hslot).ofTree n j set hjs.1 hset acc hacc) hslots hjs.2 heq

section

variable (hstart : ∀ n, I n shape.start)
  (hfinish : ∀ n acc x, I n acc → shape.finish acc = .ok x → P (n + 1) x)

include hstart hfinish

theorem ofTree {n : Nat} {j : Json} {x : α} (hj : j.nesting ≤ n)
    (heq : shape.ofTree j = .ok x) : P n x := by
  rw [Shape.ofTree.eq_def] at heq
  split at heq
  · rw [nesting] at hj
    obtain ⟨n, rfl, hes⟩ := exists_budget hj
    obtain ⟨acc, hacc, heq⟩ := exists_of_bind_eq_ok heq
    split at heq
    · next hx =>
      cases heq
      exact hfinish n acc _ (h.fillByKey (hstart n) hes hacc) hx
    · cases heq
  · rw [nesting] at hj
    obtain ⟨n, rfl, hjs⟩ := exists_budget hj
    obtain ⟨⟨acc, left⟩, hacc, heq⟩ := exists_of_bind_eq_ok heq
    dsimp only at heq
    split at heq
    · next hx =>
      split at heq
      · cases heq
        exact hfinish n acc _ (h.fillInOrder (hstart n) (fun _ => id) hjs hacc) hx
      · cases heq
    · cases heq
  · cases heq

theorem gives_read (n : Nat) : (shape.read n).Gives (P n) := by
  intro cs x rest heq
  rw [Shape.read.eq_def] at heq
  dsimp only at heq
  split at heq
  · cases heq
  · cases heq
  · cases heq
  · obtain ⟨⟨⟨acc, count⟩, rest'⟩, hacc, heq⟩ := exists_of_bind_eq_ok heq
    dsimp only at heq
    split at heq
    · next hx =>
      obtain ⟨rest'', -, heq⟩ := exists_of_bind_eq_ok heq
      cases heq
      exact hfinish _ acc _ (h.gives_positional (fun _ => id) 0 (hstart _) _ _ _ hacc) hx
    · cases heq
  · obtain ⟨⟨acc, rest'⟩, hacc, heq⟩ := exists_of_bind_eq_ok heq
    dsimp only at heq
    split at heq
    · next hx =>
      cases heq
      exact hfinish _ acc _ (h.gives_byKey (hstart _) _ _ _ hacc) hx
    · cases heq
  · cases heq

/-- **A record yields what its members are made into**, with one container less for each of
them. -/
theorem yields : (ofShape shape).Yields P where
  ofTree _ _ _ hj heq := h.ofTree hstart hfinish hj heq
  read := h.gives_read hstart hfinish

end

end Shape.Keeps

/-! ## Members -/

/-- The value of a member has a property, whether it is read or the member's fallback. -/
structure Member.Yields (m : Member β) (Q : Nat → β → Prop) : Prop where
  given : m.decoder.Yields Q
  absent : ∀ x, m.fallback = some x → ∀ n, Q n x

section

variable {d : Decoder β} {Q : Nat → β → Prop}

theorem yields_required (name : String) (h : d.Yields Q) : (required name d).Yields Q :=
  ⟨h, nofun⟩

theorem yields_defaulted (name : String) (h : d.Yields Q) {x : β} (hx : ∀ n, Q n x) :
    (defaulted name d x).Yields Q :=
  ⟨h, by rintro _ ⟨⟩; exact hx⟩

theorem yields_absentable (name : String) (h : d.Yields Q) :
    (absentable name d).Yields fun n x => ∀ y ∈ x, Q n y :=
  ⟨h.optional, by rintro _ ⟨⟩ n; nofun⟩

end

section

variable {m : Member β} {Q : Nat → β → Prop} (h : m.Yields Q)

include h

theorem Member.Yields.of_get {n : Nat} {kept : Option β} (hkept : ∀ x ∈ kept, Q n x) {x : β}
    (hx : m.get kept = .ok x) : Q n x := by
  rw [Member.get.eq_def] at hx
  split at hx
  · cases hx
    exact hkept x rfl
  · next hfallback =>
    cases hx
    exact h.absent x hfallback n
  · cases hx

theorem Member.Yields.slot {get : σ → Option β} {set : β → σ → σ}
    (hset : ∀ n x acc, Q n x → I n acc → I n (set x acc)) :
    (m.slot get set).fill.Yields fun n set => ∀ acc, I n acc → I n (set acc) :=
  (h.given.imp fun n x hx acc => hset n x acc hx).map

end

end

section

variable {name : String} {a : Member α} {b : Member β} {c : Member γ} {d : Member δ}
  {A : Nat → α → Prop} {B : Nat → β → Prop} {C : Nat → γ → Prop} {D : Nat → δ → Prop}

theorem yields_record1 {make : α → β} {P : Nat → β → Prop} (ha : a.Yields A)
    (hmake : ∀ n x, A n x → P (n + 1) (make x)) : (record1 name a make).Yields P := by
  refine Shape.Keeps.yields (I := fun n acc => ∀ x ∈ acc, A n x) ?slots ?start ?finish
  case slots =>
    refine List.forall_mem_singleton.2 (ha.slot fun n x acc hx _ => ?_)
    rintro _ ⟨⟩
    exact hx
  case start => nofun
  case finish =>
    intro n acc z hacc hz
    obtain ⟨x, hx, hz⟩ := exists_of_bind_eq_ok hz
    cases hz
    exact hmake n x (ha.of_get hacc hx)

theorem yields_record2 {make : α → β → γ} {P : Nat → γ → Prop} (ha : a.Yields A) (hb : b.Yields B)
    (hmake : ∀ n x y, A n x → B n y → P (n + 1) (make x y)) : (record2 name a b make).Yields P := by
  refine Shape.Keeps.yields (I := fun n acc => (∀ x ∈ acc.1, A n x) ∧ ∀ y ∈ acc.2, B n y)
    ?slots ?start ?finish
  case slots =>
    refine List.forall_mem_cons.2 ⟨ha.slot fun n x acc hx hacc => ⟨?_, hacc.2⟩,
      List.forall_mem_singleton.2 (hb.slot fun n y acc hy hacc => ⟨hacc.1, ?_⟩)⟩ <;>
    · rintro _ ⟨⟩
      assumption
  case start => exact fun n => ⟨nofun, nofun⟩
  case finish =>
    rintro n ⟨kx, ky⟩ z ⟨hkx, hky⟩ hz
    obtain ⟨x, hx, hz⟩ := exists_of_bind_eq_ok hz
    obtain ⟨y, hy, hz⟩ := exists_of_bind_eq_ok hz
    cases hz
    exact hmake n x y (ha.of_get hkx hx) (hb.of_get hky hy)

theorem yields_record3 {make : α → β → γ → δ} {P : Nat → δ → Prop} (ha : a.Yields A)
    (hb : b.Yields B) (hc : c.Yields C)
    (hmake : ∀ n x y z, A n x → B n y → C n z → P (n + 1) (make x y z)) :
    (record3 name a b c make).Yields P := by
  refine Shape.Keeps.yields (I := fun n acc => (∀ x ∈ acc.1, A n x) ∧ (∀ y ∈ acc.2.1, B n y) ∧
    ∀ z ∈ acc.2.2, C n z) ?slots ?start ?finish
  case slots =>
    refine List.forall_mem_cons.2 ⟨ha.slot fun n x acc hx hacc => ⟨?_, hacc.2⟩,
      List.forall_mem_cons.2 ⟨hb.slot fun n y acc hy hacc => ⟨hacc.1, ?_, hacc.2.2⟩,
        List.forall_mem_singleton.2 (hc.slot fun n z acc hz hacc => ⟨hacc.1, hacc.2.1, ?_⟩)⟩⟩ <;>
    · rintro _ ⟨⟩
      assumption
  case start => exact fun n => ⟨nofun, nofun, nofun⟩
  case finish =>
    rintro n ⟨kx, ky, kz⟩ w ⟨hkx, hky, hkz⟩ hw
    obtain ⟨x, hx, hw⟩ := exists_of_bind_eq_ok hw
    obtain ⟨y, hy, hw⟩ := exists_of_bind_eq_ok hw
    obtain ⟨z, hz, hw⟩ := exists_of_bind_eq_ok hw
    cases hw
    exact hmake n x y z (ha.of_get hkx hx) (hb.of_get hky hy) (hc.of_get hkz hz)

theorem yields_record4 {make : α → β → γ → δ → ε} {P : Nat → ε → Prop} (ha : a.Yields A)
    (hb : b.Yields B) (hc : c.Yields C) (hd : d.Yields D)
    (hmake : ∀ n x y z w, A n x → B n y → C n z → D n w → P (n + 1) (make x y z w)) :
    (record4 name a b c d make).Yields P := by
  refine Shape.Keeps.yields (I := fun n acc => (∀ x ∈ acc.1, A n x) ∧ (∀ y ∈ acc.2.1, B n y) ∧
    (∀ z ∈ acc.2.2.1, C n z) ∧ ∀ w ∈ acc.2.2.2, D n w) ?slots ?start ?finish
  case slots =>
    refine List.forall_mem_cons.2 ⟨ha.slot fun n x acc hx hacc => ⟨?_, hacc.2⟩,
      List.forall_mem_cons.2 ⟨hb.slot fun n y acc hy hacc => ⟨hacc.1, ?_, hacc.2.2⟩,
        List.forall_mem_cons.2
          ⟨hc.slot fun n z acc hz hacc => ⟨hacc.1, hacc.2.1, ?_, hacc.2.2.2⟩,
            List.forall_mem_singleton.2
              (hd.slot fun n w acc hw hacc => ⟨hacc.1, hacc.2.1, hacc.2.2.1, ?_⟩)⟩⟩⟩ <;>
    · rintro _ ⟨⟩
      assumption
  case start => exact fun n => ⟨nofun, nofun, nofun, nofun⟩
  case finish =>
    rintro n ⟨kx, ky, kz, kw⟩ v ⟨hkx, hky, hkz, hkw⟩ hv
    obtain ⟨x, hx, hv⟩ := exists_of_bind_eq_ok hv
    obtain ⟨y, hy, hv⟩ := exists_of_bind_eq_ok hv
    obtain ⟨z, hz, hv⟩ := exists_of_bind_eq_ok hv
    obtain ⟨w, hw, hv⟩ := exists_of_bind_eq_ok hv
    cases hv
    exact hmake n x y z w (ha.of_get hkx hx) (hb.of_get hky hy) (hc.of_get hkz hz)
      (hd.of_get hkw hw)

end

/-! ## Choices -/

section

variable {P : Nat → α → Prop}

theorem yields_emptyPayload (choice caseName : String) {x : α} (hx : ∀ n, P (n + 1) x) :
    (emptyPayload choice caseName x).Yields P := by
  have hempty : (ofShape (emptyShape x)).Yields P := by
    refine Shape.Keeps.yields (I := fun _ _ => True) nofun (fun _ => trivial) ?_
    rintro n _ _ _ ⟨⟩
    exact hx n
  refine ⟨fun n j y hj heq => ?_, fun n cs y rest heq => ?_⟩
  · rw [emptyPayload] at heq
    dsimp only at heq
    split at heq
    · exact hempty.ofTree n _ y hj heq
    · exact hempty.ofTree n _ y hj heq
    · cases heq
  · rw [emptyPayload] at heq
    dsimp only at heq
    split at heq
    · exact hempty.read n _ _ _ heq
    · exact hempty.read n _ _ _ heq
    · cases heq
    · cases heq

/-- What stands under the name of a case has a property with the object of the case around
it. -/
def Payload.Yields (P : Nat → α → Prop) : Payload α → Prop
  | .of d => d.Yields fun n => P (n + 1)
  | .empty _ x => ∀ n, P (n + 2) x
  | .none x => ∀ n, P n x

namespace Payload.Yields

variable {payload : Payload α} (h : payload.Yields P)

include h

theorem decoder (choice : String) : (payload.decoder choice).Yields fun n => P (n + 1) := by
  cases payload with
  | of d => exact h
  | empty caseName x => exact yields_emptyPayload choice caseName h
  | none x =>
    have htake : ∀ j y, nullOfTree x j = .ok y → ∀ n, P n y := by
      intro j y heq n
      rw [nullOfTree.eq_def] at heq
      split at heq
      · cases heq
        exact h n
      · cases heq
    exact ⟨fun n j y _ heq => htake j y heq (n + 1),
      fun n cs y rest heq => gives_readScalar htake n cs y rest heq (n + 1)⟩

theorem bare {x : α} (hx : payload.bare = .ok x) (n : Nat) : P n x := by
  cases payload <;> cases hx
  exact h n

end Payload.Yields

theorem mem_of_caseOf {cases : List (String × β)} {name : String} {x : β}
    (h : caseOf cases name = .ok x) : (name, x) ∈ cases := by
  rw [caseOf] at h
  split at h
  · next hlookup =>
    cases h
    obtain ⟨before, after, rfl, -⟩ := List.lookup_eq_some_iff.1 hlookup
    exact List.mem_append_right _ (List.mem_cons_self ..)
  · cases h

/-- **A choice yields what its cases do.** -/
theorem yields_choice (name : String) {cases : List (String × Payload α)}
    (h : ∀ c ∈ cases, c.2.Yields P) : (choice name cases).Yields P where
  ofTree n j x hj heq := by
    rw [choice] at heq
    dsimp only at heq
    rw [choiceOfTree.eq_def] at heq
    split at heq
    · rw [nesting] at hj
      obtain ⟨n, rfl, hentry⟩ := exists_budget hj
      obtain ⟨payload, hpayload, heq⟩ := exists_of_bind_eq_ok heq
      have hyields := (h _ (mem_of_caseOf hpayload)).decoder name
      exact hyields.ofTree n _ x (entryNesting_le.1 hentry _ (List.mem_singleton_self _)) heq
    · obtain ⟨payload, hpayload, heq⟩ := exists_of_bind_eq_ok heq
      exact (h _ (mem_of_caseOf hpayload)).bare heq n
    · cases heq
  read n cs x rest heq := by
    rw [choice] at heq
    dsimp only at heq
    rw [readChoice.eq_def] at heq
    dsimp only at heq
    split at heq
    · cases heq
    · cases heq
    · obtain ⟨⟨key, afterKey⟩, -, heq⟩ := exists_of_bind_eq_ok heq
      obtain ⟨payload, hpayload, heq⟩ := exists_of_bind_eq_ok heq
      obtain ⟨afterColon, -, heq⟩ := exists_of_bind_eq_ok heq
      obtain ⟨⟨y, afterPayload⟩, hy, heq⟩ := exists_of_bind_eq_ok heq
      have hyields := (h _ (mem_of_caseOf (eq_ok_of_mapError hpayload))).decoder name
      have hx := (hyields.read _).within _ _ _ _ hy
      dsimp only at heq
      split at heq <;> cases heq
      exact hx
    · obtain ⟨⟨key, afterKey⟩, -, heq⟩ := exists_of_bind_eq_ok heq
      obtain ⟨payload, hpayload, heq⟩ := exists_of_bind_eq_ok heq
      obtain ⟨y, hy, heq⟩ := exists_of_bind_eq_ok heq
      cases heq
      exact (h _ (mem_of_caseOf (eq_ok_of_mapError hpayload))).bare (eq_ok_of_mapError hy) _
    · cases heq

end

/-! ## Parts that could be several things -/

theorem yields_untagged (name : String) {fits : Json → Option α} {P : Nat → α → Prop}
    (h : ∀ n j x, j.nesting ≤ n → fits j = some x → P n x) : (untagged name fits).Yields P where
  ofTree n j x hj heq := by
    rw [untagged] at heq
    dsimp only at heq
    split at heq
    · next hfits =>
      cases heq
      exact h n j x hj hfits
    · cases heq
  read n cs x rest heq := by
    obtain ⟨⟨j, rest'⟩, hj, heq⟩ := exists_of_bind_eq_ok heq
    dsimp only at heq
    split at heq
    · next hfits =>
      cases heq
      exact h n j x (gives_value n _ _ _ hj) hfits
    · cases heq

end Decoder
end Json
end WireSchema
