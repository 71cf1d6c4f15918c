import Mathlib.Data.Finset.Card
import WireSchema.Proofs.Compiler.Meaning

/-!
# Sharing is exact

A compiled schema does not say where a definition in place has gone, but it can be read
off: the content of a declared type refers to other types at the very places at which its
declaration has references, and so on inside the definitions in place.
`TypeSystem.Resolves` follows a schema and its type system side by side in this way.

Two definitions in place then come to the same type if and only if their canonical forms
have the same text, wherever in the schema they stand (`Compiler.sharing_exact`).
-/

namespace WireSchema

/-- A reference of a schema comes to a type of a type system: it stands at the same place
as the type, in a declaration and the content of its type, or in a definition in place and
the content of the type that this one has come to. -/
inductive TypeSystem.Resolves (ts : TypeSystem) (s : Schema) : Reference → TypeId → Prop
  | declared {i : Nat} {name : TypeName} {d : Definition} {t : CompiledType} {r : Reference}
      {id : TypeId} (declaration : s.types.toList[i]? = some (name, d))
      (type : ts.types[i]? = some t) (position : (r, id) ∈ d.references.zip t.body.references) :
      Resolves ts s r id
  | inline {d : Definition} {i : TypeId} {t : CompiledType} {r : Reference} {id : TypeId}
      (resolved : Resolves ts s (.inline d) i) (type : ts.types[i]? = some t)
      (position : (r, id) ∈ d.references.zip t.body.references) : Resolves ts s r id

namespace TypeSystem.Represents

variable {ts : TypeSystem} {s : Schema} {place : Reference → TypeId}

/-- Positions of references are told apart by contents that are written alike. -/
theorem references_eq {d : Definition} {b b' : Body} (hlinked : d.linked place = some b)
    (hwritten : b'.asWritten = b.asWritten) : b'.references = d.references.map place := by
  rw [← Definition.references_linked hlinked, ← Body.references_asWritten b', hwritten,
    Body.references_asWritten]

theorem mem_zip_iff {rs : List Reference} {r : Reference} {id : TypeId} :
    (r, id) ∈ rs.zip (rs.map place) ↔ r ∈ rs ∧ id = place r := by
  rw [← List.map_prod_left_eq_zip, List.mem_map]
  constructor
  · rintro ⟨r', hr', heq⟩
    cases heq
    exact ⟨hr', rfl⟩
  · rintro ⟨hr, rfl⟩
    exact ⟨r, hr, rfl⟩

/-- **A reference comes to its place**, and so to one type only. -/
theorem eq_place_of_resolves (h : ts.Represents s place) {r : Reference} {id : TypeId}
    (hr : ts.Resolves s r id) : id = place r ∧ ∀ d, r = .inline d → d ∈ s.inlines := by
  induction hr with
  | @declared i name d t r id hdeclaration htype hposition =>
    obtain ⟨b, hb, hlinked⟩ := h.declared i name d hdeclaration
    obtain rfl := Option.some.inj (htype.symm.trans hb)
    rw [references_eq hlinked rfl] at hposition
    obtain ⟨hmem, hid⟩ := mem_zip_iff.1 hposition
    refine ⟨hid, ?_⟩
    rintro e rfl
    exact Schema.mem_inlines.2 ⟨_, List.mem_of_getElem? hdeclaration,
      Definition.mem_inlines_of_mem_references hmem⟩
  | @inline d i t r id hresolved htype hposition ih =>
    obtain ⟨rfl, hd⟩ := ih
    have hinline := hd d rfl
    obtain ⟨t', b, ht', -, hlinked, hwritten⟩ := h.content d hinline
    obtain rfl := Option.some.inj (htype.symm.trans ht')
    rw [references_eq hlinked hwritten] at hposition
    obtain ⟨hmem, hid⟩ := mem_zip_iff.1 hposition
    refine ⟨hid, ?_⟩
    rintro e rfl
    exact Schema.inlines_subset hinline (Definition.mem_inlines_of_mem_references hmem)

/-- A definition with its references brings along all that it contains. -/
theorem resolves_of_mem_inlines (h : ts.Represents s place) {d : Definition}
    (hd : d.inlines ⊆ s.inlines)
    (hreferences : ∀ r ∈ d.references, ts.Resolves s r (place r)) :
    ∀ e ∈ d.inlines, ts.Resolves s (.inline e) (place (.inline e)) := by
  refine Definition.forall_mem_inlines (fun f hf => hreferences _ hf) fun e he hresolved f hf => ?_
  obtain ⟨t, b, ht, -, hlinked, hwritten⟩ := h.content e (hd he)
  refine .inline hresolved ht ?_
  rw [references_eq hlinked hwritten]
  exact mem_zip_iff.2 ⟨hf, rfl⟩

/-- Every definition in place comes to a type. -/
theorem resolves_inline (h : ts.Represents s place) {e : Definition} (he : e ∈ s.inlines) :
    ts.Resolves s (.inline e) (place (.inline e)) := by
  obtain ⟨⟨name, d⟩, hdeclaration, hmem⟩ := Schema.mem_inlines.1 he
  obtain ⟨i, hi⟩ := List.getElem?_of_mem hdeclaration
  obtain ⟨b, hb, hlinked⟩ := h.declared i name d hi
  refine h.resolves_of_mem_inlines
    (fun f hf => Schema.mem_inlines.2 ⟨_, hdeclaration, hf⟩) ?_ e hmem
  intro r hr
  refine .declared hi hb ?_
  rw [Definition.references_linked hlinked]
  exact mem_zip_iff.2 ⟨hr, rfl⟩

/-- Places are the same exactly where canonical texts are. -/
theorem place_eq_iff (h : ts.Represents s place) {d e : Definition} (hd : d ∈ s.inlines)
    (he : e ∈ s.inlines) :
    place (.inline d) = place (.inline e) ↔ d.canonical.text = e.canonical.text := by
  rw [h.inline d hd, h.inline e he]
  refine ⟨fun heq => ?_, fun heq => by rw [heq]⟩
  exact (List.idxOf_inj (Schema.mem_firsts_inlineTexts hd)).1 (Nat.add_left_cancel heq)

/-- The anonymous types are those behind the declared ones. -/
theorem length_anonymous (h : ts.Represents s place) :
    ts.anonymous.length = (firsts s.inlineTexts).length := by
  have hsplit := List.take_append_drop s.types.size ts.types
  have hdeclared : (ts.types.take s.types.size).filter (fun t => t.anonymous) = [] := by
    rw [List.filter_eq_nil_iff]
    intro t ht
    obtain ⟨i, hi⟩ := List.getElem?_of_mem ht
    rw [List.getElem?_take] at hi
    split at hi
    next hlt =>
      obtain ⟨b, hb, -⟩ := h.declared i _ _ (List.getElem?_eq_getElem hlt)
      obtain rfl := Option.some.inj (hi.symm.trans hb)
      exact Bool.false_ne_true
    next => cases hi
  have hothers : (ts.types.drop s.types.size).filter (fun t => t.anonymous) =
      ts.types.drop s.types.size := by
    rw [List.filter_eq_self]
    intro t ht
    obtain ⟨i, hi⟩ := List.getElem?_of_mem ht
    rw [List.getElem?_drop] at hi
    exact h.anonymous _ t (Nat.le_add_right _ _) hi
  have hsize := h.size
  rw [TypeSystem.size] at hsize
  rw [TypeSystem.anonymous, ← hsplit, List.filter_append, hdeclared, hothers, List.nil_append,
    List.length_drop, hsize, Nat.add_sub_cancel_left]

end TypeSystem.Represents

namespace Compiler

variable {c : Compiler} {s : Schema} {ts : TypeSystem}

/-- **Sharing is exact.**  If digests tell the canonical texts of the definitions in place
of a schema apart, and the schema compiles, then

* every definition in place comes to a type, and to one only,
* two definitions in place come to the same type if and only if their canonical forms
  have the same text,
* there are as many anonymous types as there are different canonical texts. -/
theorem sharing_exact (hseparates : Separates c.digest s.inlines) (h : c.compile s = .ok ts) :
    (∀ d ∈ s.inlines, ∃! id, ts.Resolves s (.inline d) id) ∧
      (∀ d e i j, ts.Resolves s (.inline d) i → ts.Resolves s (.inline e) j →
        (i = j ↔ d.canonical.text = e.canonical.text)) ∧
      ts.anonymous.length = s.inlineTexts.toFinset.card := by
  have hrepresents := represents_locate hseparates h
  refine ⟨fun d hd => ?_, fun d e i j hi hj => ?_, ?_⟩
  · refine ⟨_, hrepresents.resolves_inline hd, fun id hid => ?_⟩
    exact (hrepresents.eq_place_of_resolves hid).1
  · obtain ⟨rfl, hd⟩ := hrepresents.eq_place_of_resolves hi
    obtain ⟨rfl, he⟩ := hrepresents.eq_place_of_resolves hj
    exact hrepresents.place_eq_iff (hd d rfl) (he e rfl)
  · have hset : s.inlineTexts.toFinset = (firsts s.inlineTexts).toFinset := by
      ext x
      rw [List.mem_toFinset, List.mem_toFinset, firsts, mem_firstsAfter]
      simp
    have hnodup : (firsts s.inlineTexts).Nodup := nodup_firstsAfter _ _
    rw [hset, List.toFinset_card_of_nodup hnodup, hrepresents.length_anonymous]

theorem sharing_exact_twins :
    Separates id twins.inlines ∧ ∃ ts, compile ⟨.standard, id⟩ twins = .ok ts ∧
      (∀ d ∈ twins.inlines, ∃! id, ts.Resolves twins (.inline d) id) ∧
      (∀ d e i j, ts.Resolves twins (.inline d) i → ts.Resolves twins (.inline e) j →
        (i = j ↔ d.canonical.text = e.canonical.text)) ∧
      ts.anonymous.length = twins.inlineTexts.toFinset.card := by
  have hseparates : Separates id twins.inlines := fun _ _ _ _ h => h
  obtain ⟨ts, h⟩ : ∃ ts, compile ⟨.standard, id⟩ twins = .ok ts := ⟨_, rfl⟩
  exact ⟨hseparates, ts, h, sharing_exact hseparates h⟩

end Compiler
end WireSchema
