/-
Values written as JSON text and read back, whatever does the writing and the reading. What is known about
it is how the types it goes by are represented: integers in decimal, variants as strings of their names,
lists and pairs in brackets, records in braces under the names of their fields, maps in braces under their
keys in decimal. Each representation says what is written for a value when the texts of its parts are given,
and, apart from that, what is read from a text when it is given what is read from the texts of the parts.
So a value reads back from its text once its parts do, as long as no two fields of a record, and no two
variants, have the same name.
-/
import LinearAssignment.Decimal
import LinearAssignment.Proofs.RowMap
import Mathlib.Data.List.Forall2

namespace LinearAssignment.Json

/-! ## Texts from the texts of the parts -/

def quoted (s : List Char) : List Char := '"' :: s ++ ['"']

def brackets (items : List (List Char)) : List Char := '[' :: [','].intercalate items ++ [']']

/-- A member of an object is given by its key, which is to need no escapes, and the text of its value. -/
def member (m : List Char × List Char) : List Char := quoted m.1 ++ ':' :: m.2

def braces (members : List (List Char × List Char)) : List Char :=
  '\x7b' :: [','].intercalate (members.map member) ++ ['\x7d']

/-! ## Lists side by side -/

section
universe u v w
variable {α : Type u} {β : Type v} {γ : Type w}

theorem exists_forall₂_iff {R : α → β → Prop} {l : List α} :
    (∃ bs, l.Forall₂ R bs) ↔ ∀ a ∈ l, ∃ b, R a b := by
  induction l with
  | nil => exact ⟨fun _ => List.forall_mem_nil _, fun _ => ⟨[], .nil⟩⟩
  | cons a l ih =>
    rw [List.forall_mem_cons, ← ih]
    constructor
    · rintro ⟨_, hab | ⟨hab, hl⟩⟩
      exact ⟨⟨_, hab⟩, _, hl⟩
    · rintro ⟨⟨b, hab⟩, bs, hl⟩
      exact ⟨b :: bs, .cons hab hl⟩

/-- Among texts with distinct keys, the one with the key of an item is that of the item. -/
theorem rel_of_mem_zip {R : α → γ → Prop} {key : α → β} {l : List α} {cs : List γ}
    (h : l.Forall₂ R cs) (hkeys : (l.map key).Nodup) {a : α} (ha : a ∈ l) {c : γ}
    (hc : (key a, c) ∈ (l.map key).zip cs) : R a c := by
  induction h with
  | nil => cases ha
  | @cons b d l ds hbd _ ih =>
    obtain ⟨hb, hl⟩ := List.nodup_cons.1 hkeys
    rw [List.map_cons, List.zip_cons_cons, List.mem_cons, Prod.mk.injEq] at hc
    rcases List.mem_cons.1 ha with rfl | ha
    · rcases hc with ⟨-, rfl⟩ | hc
      · exact hbd
      · exact absurd (List.of_mem_zip hc).1 hb
    · rcases hc with ⟨hkey, -⟩ | hc
      · exact absurd (hkey ▸ List.mem_map_of_mem ha) hb
      · exact ih hl ha hc

end

/-! ## Writing and reading -/

/-- The values of a type, written as text and read from it. Both may fail; what is read is a value that fits
the type: a size, say, is below a limit. -/
structure Serial (α : Type) (Fits : α → Prop) where
  write? : α → Option (List Char)
  read? : List Char → Option α
  fits : ∀ s a, read? s = some a → Fits a

/-- A field of a record with values `α`: its name, its type, and where it is found. -/
structure Field (α : Type) where
  name : String
  {Value : Type}
  {Fits : Value → Prop}
  serial : Serial Value Fits
  get : α → Value

namespace Serial

variable {α β : Type} {P : α → Prop} {Q : β → Prop}

/-- The value is written, and read back from the text written for it. -/
def Restores (I : Serial α P) (a : α) : Prop := ∃ s, I.write? a = some s ∧ I.read? s = some a

/-- The values that fit, and no others, are read back from their text. So a value that has been read from any
text is written as a text that is read as the same value, and written the same. -/
structure RoundTrips (I : Serial α P) : Prop where
  restores_iff : ∀ a, I.Restores a ↔ P a
  read_again : ∀ t a, I.read? t = some a → I.Restores a
  write_again : ∀ t a, I.read? t = some a → ∀ s, I.write? a = some s → (I.read? s).bind I.write? = some s

theorem Restores.fits {I : Serial α P} {a : α} (h : I.Restores a) : P a := by
  obtain ⟨s, -, hs⟩ := h
  exact I.fits s a hs

theorem roundTrips_of_restores {I : Serial α P} (h : ∀ a, P a → I.Restores a) : I.RoundTrips := by
  constructor
  · exact fun a => ⟨Restores.fits, h a⟩
  · exact fun t a ht => h a (I.fits t a ht)
  · intro t a ht s hs
    obtain ⟨s', hs', hread⟩ := h a (I.fits t a ht)
    obtain rfl := Option.some.inj (hs.symm.trans hs')
    rw [hread, Option.bind_some, hs]

/-! ## Representations -/

/-- An integer is written in decimal, without a sign or zeros that it does not need, and read from that. -/
structure Decimals (I : Serial α P) (value : α → Int) : Prop where
  write? : ∀ a, P a → I.write? a = some (Decimal.ofInt (value a))
  read? : ∀ a, P a → I.read? (Decimal.ofInt (value a)) = some a

/-- The values have words of their own. -/
structure Words (I : Serial α P) (words : List (α × List Char)) : Prop where
  write? : ∀ w ∈ words, I.write? w.1 = some w.2
  read? : ∀ w ∈ words, I.read? w.2 = some w.1

/-- A variant of an enumeration is a string, its name. A string that is the name of several is read as the
first of them. -/
structure VariantOf (I : Serial α P) (variants : List α) (name : α → String) : Prop where
  write? : ∀ a ∈ variants, I.write? a = some (quoted (name a).toList)
  read? : ∀ a ∈ variants, I.read? (quoted (name a).toList) = variants.find? fun b => name b = name a

/-- A list is an array of its items in their order. -/
structure ArrayOf {R : List α → Prop} (I : Serial (List α) R) (item : Serial α P) : Prop where
  write? : ∀ l ss, l.Forall₂ (fun a s => item.write? a = some s) ss → I.write? l = some (brackets ss)
  read? : ∀ l ss, l.Forall₂ (fun a s => item.read? s = some a) ss → I.read? (brackets ss) = some l

/-- A pair is an array of two items. -/
structure PairOf {R : α × β → Prop} (I : Serial (α × β) R) (fst : Serial α P) (snd : Serial β Q) : Prop where
  write? : ∀ p s t, fst.write? p.1 = some s → snd.write? p.2 = some t → I.write? p = some (brackets [s, t])
  read? : ∀ p s t, fst.read? s = some p.1 → snd.read? t = some p.2 → I.read? (brackets [s, t]) = some p

/-- A map is an object with its keys in decimal. They are written in ascending order, and read in any. -/
structure MapOf {R : RowMap → Prop} {N : Nat → Prop} (I : Serial RowMap R) (number : Serial Nat N) :
    Prop where
  write? : ∀ m ss, m.entries.Forall₂ (fun e s => number.write? e.2 = some s) ss →
    I.write? m = some (braces ((m.entries.map fun e => Decimal.ofNat e.1).zip ss))
  read? : ∀ es ss, (es.map Prod.fst).Nodup → (∀ e ∈ es, N e.1) →
    es.Forall₂ (fun e s => number.read? s = some e.2) ss →
    I.read? (braces ((es.map fun e => Decimal.ofNat e.1).zip ss)) = some (.ofList es)

/-- A record is an object with its fields as members. They are written in their order, and read in any. -/
structure RecordOf (I : Serial α P) (fields : List (Field α)) : Prop where
  write? : ∀ a ss, fields.Forall₂ (fun f s => f.serial.write? (f.get a) = some s) ss →
    I.write? a = some (braces ((fields.map fun f => f.name.toList).zip ss))
  read? : ∀ a members, (members.map Prod.fst).Perm (fields.map fun f => f.name.toList) →
    (∀ f ∈ fields, ∀ s, (f.name.toList, s) ∈ members → f.serial.read? s = some (f.get a)) →
    I.read? (braces members) = some a

/-! ## From the parts to the whole -/

theorem Decimals.restores {I : Serial α P} {value : α → Int} (h : I.Decimals value) {a : α} (ha : P a) :
    I.Restores a := ⟨_, h.write? a ha, h.read? a ha⟩

theorem Words.restores {I : Serial α P} {words : List (α × List Char)} (h : I.Words words)
    {w : α × List Char} (hw : w ∈ words) : I.Restores w.1 := ⟨w.2, h.write? w hw, h.read? w hw⟩

theorem VariantOf.restores {I : Serial α P} {variants : List α} {name : α → String}
    (h : I.VariantOf variants name) (hnames : (variants.map name).Nodup) {a : α} (ha : a ∈ variants) :
    I.Restores a :=
  ⟨_, h.write? a ha, (h.read? a ha).trans ((find?_key_eq_some_iff hnames).2 ⟨ha, rfl⟩)⟩

theorem ArrayOf.restores {R : List α → Prop} {I : Serial (List α) R} {item : Serial α P}
    (h : I.ArrayOf item) {l : List α} (hl : ∀ a ∈ l, item.Restores a) : I.Restores l := by
  obtain ⟨ss, hss⟩ := exists_forall₂_iff.2 hl
  exact ⟨brackets ss, h.write? l ss (hss.imp fun _ _ hs => hs.1), h.read? l ss (hss.imp fun _ _ hs => hs.2)⟩

theorem PairOf.restores {R : α × β → Prop} {I : Serial (α × β) R} {fst : Serial α P} {snd : Serial β Q}
    (h : I.PairOf fst snd) {p : α × β} (h₁ : fst.Restores p.1) (h₂ : snd.Restores p.2) : I.Restores p := by
  obtain ⟨s, hws, hrs⟩ := h₁
  obtain ⟨t, hwt, hrt⟩ := h₂
  exact ⟨brackets [s, t], h.write? p s t hws hwt, h.read? p s t hrs hrt⟩

theorem MapOf.restores {R : RowMap → Prop} {N : Nat → Prop} {I : Serial RowMap R} {number : Serial Nat N}
    (h : I.MapOf number) {m : RowMap} (hkeys : ∀ e ∈ m.entries, N e.1)
    (hm : ∀ e ∈ m.entries, number.Restores e.2) : I.Restores m := by
  obtain ⟨ss, hss⟩ := exists_forall₂_iff.2 hm
  have hnodup : (m.entries.map Prod.fst).Nodup := List.pairwise_map.2 (m.ascending.imp Nat.ne_of_lt)
  have hread := h.read? m.entries ss hnodup hkeys (hss.imp fun _ _ hs => hs.2)
  rw [RowMap.ofList_entries] at hread
  exact ⟨_, h.write? m ss (hss.imp fun _ _ hs => hs.1), hread⟩

theorem RecordOf.restores {I : Serial α P} {fields : List (Field α)} (h : I.RecordOf fields)
    (hnames : (fields.map Field.name).Nodup) {a : α} (ha : ∀ f ∈ fields, f.serial.Restores (f.get a)) :
    I.Restores a := by
  obtain ⟨ss, hss⟩ := exists_forall₂_iff.2 ha
  have hkeys : (fields.map fun f => f.name.toList).Nodup := by
    have hkeys := hnames.map (f := String.toList) fun _ _ => String.toList_inj.1
    rwa [List.map_map] at hkeys
  refine ⟨_, h.write? a ss (hss.imp fun _ _ hs => hs.1), h.read? a _ ?_ fun f hf s hs => ?_⟩
  · rw [List.map_fst_zip (by simp [hss.length_eq])]
  · exact (rel_of_mem_zip hss hkeys hf hs).2

end Serial

end LinearAssignment.Json
