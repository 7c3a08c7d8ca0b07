/-
Codecs as ways to write and to read. Each type has the values that its codec can read at all. What codecs
write and read of numbers, lists, pairs and records is in the representation of the type, whatever the
texts of the parts are like.
-/
import LinearAssignment.Json.Codec
import LinearAssignment.Proofs.Json.Text
import Mathlib.Data.List.Nodup

namespace LinearAssignment

/-! ## Lists of partial results -/

section
variable {α β γ : Type} {f : α → Option β} {l : List α}

theorem mapM_eq_some_iff {r : List β} : l.mapM f = some r ↔ l.Forall₂ (fun a b => f a = some b) r := by
  induction l generalizing r with
  | nil => simp [eq_comm]
  | cons a l ih =>
    simp only [List.mapM_cons, Option.bind_eq_bind, Option.bind_eq_some_iff, ih, List.forall₂_cons_left_iff,
      Option.pure_def, Option.some.injEq]
    constructor
    · rintro ⟨b, hb, bs, hbs, rfl⟩
      exact ⟨b, bs, hb, hbs, rfl⟩
    · rintro ⟨b, bs, hb, hbs, rfl⟩
      exact ⟨b, hb, bs, hbs, rfl⟩

theorem mapM_map_eq_some {g : γ → α} {k : γ → β} {l : List γ} (h : ∀ c ∈ l, f (g c) = some (k c)) :
    (l.map g).mapM f = some (l.map k) := by
  rw [mapM_eq_some_iff, List.forall₂_map_left_iff, List.forall₂_map_right_iff]
  exact List.forall₂_same.2 h

theorem forall_of_mapM_eq_some {P : β → Prop} {r : List β} (h : l.mapM f = some r)
    (hP : ∀ a b, f a = some b → P b) : ∀ b ∈ r, P b := by
  intro b hb
  obtain ⟨a, hab⟩ := Json.exists_forall₂_iff.1 ⟨l, (mapM_eq_some_iff.1 h).flip⟩ b hb
  exact hP a b hab

/-- Items that come out of two steps, the second of which is the same for all. -/
theorem exists_mapM_eq_some {R : γ → β → Prop} {g : β → Option α} {cs : List γ}
    (h : l.Forall₂ (fun a c => ∃ b, R c b ∧ g b = some a) cs) :
    ∃ bs, cs.Forall₂ R bs ∧ bs.mapM g = some l := by
  induction h with
  | nil => exact ⟨[], .nil, rfl⟩
  | cons hac _ ih =>
    obtain ⟨b, hb, hg⟩ := hac
    obtain ⟨bs, hbs, hl⟩ := ih
    refine ⟨b :: bs, .cons hb hbs, ?_⟩
    rw [List.mapM_cons, hg, hl]
    rfl

theorem forall₂_zip_map {R : α → γ → Prop} {cs : List γ} (h : l.Forall₂ R cs) (key : α → β) :
    l.Forall₂ (fun a m => m.1 = key a ∧ R a m.2) ((l.map key).zip cs) := by
  induction h with
  | nil => exact .nil
  | cons hac _ ih => exact .cons ⟨rfl, hac⟩ ih

universe u

theorem eq_map_of_forall₂ {ι : Type u} {f : ι → Option β} {k : ι → β} {l : List ι} {bs : List β}
    (h : l.Forall₂ (fun i b => f i = some b) bs) (hk : ∀ i, f i = some (k i)) : bs = l.map k := by
  induction h with
  | nil => rfl
  | cons hab _ ih => rw [List.map_cons, ih, ← Option.some.inj (hab.symm.trans (hk _))]

/-- Among pairs with distinct first parts, the ones with a given first part are one. -/
theorem filter_fst_eq [DecidableEq α] {l : List (α × β)} (h : (l.map Prod.fst).Nodup) {p : α × β}
    (hp : p ∈ l) : l.filter (fun q => q.1 = p.1) = [p] := by
  induction l with
  | nil => cases hp
  | cons q l ih =>
    rw [List.map_cons, List.nodup_cons] at h
    obtain ⟨hq, hl⟩ := h
    rcases List.mem_cons.1 hp with rfl | hp
    · have hrest : l.filter (fun q => q.1 = p.1) = [] := by
        rw [List.filter_eq_nil_iff]
        intro r hr
        have hne : r.1 ≠ p.1 := fun e => hq (e ▸ List.mem_map_of_mem hr)
        simpa using hne
      simp [hrest]
    · have hne : q.1 ≠ p.1 := fun e => hq (e ▸ List.mem_map_of_mem hp)
      rw [List.filter_cons_of_neg (by simpa using hne), ih hl hp]

end

namespace Json

/-- Only values that fit are read. -/
def Codec.Within (α : Type) [Codec α] (Fits : α → Prop) : Prop :=
  ∀ (v : Json) (a : α), decode? v = some a → Fits a

/-- The texts that a codec writes and reads. -/
def Serial.ofCodec {α : Type} [Codec α] {Fits : α → Prop} (h : Codec.Within α Fits) : Serial α Fits where
  write? a := some (Json.write a).toList
  read? s := Json.read? (String.ofList s)
  fits _ a ha := by
    obtain ⟨v, -, hv⟩ := Option.bind_eq_some_iff.1 ha
    exact h v a hv

namespace Serial

variable {α : Type} [Codec α] {P : α → Prop} (h : Codec.Within α P)

theorem write?_ofCodec (a : α) : (ofCodec h).write? a = some (encode a).text :=
  congrArg some String.toList_ofList

theorem read?_ofCodec (s : List Char) : (ofCodec h).read? s = (ofText? s).bind decode? := by
  show (ofText? (String.ofList s).toList).bind decode? = _
  rw [String.toList_ofList]

theorem read?_ofCodec_eq_some_iff {s : List Char} {a : α} :
    (ofCodec h).read? s = some a ↔ ∃ v, ofText? s = some v ∧ decode? v = some a := by
  rw [read?_ofCodec, Option.bind_eq_some_iff]

end Serial

/-! ## Numbers, lists and pairs -/

namespace Codec

variable {α β : Type} [Codec α] [Codec β] {P : α → Prop} {Q : β → Prop}

theorem within_true : Within α fun _ => True := fun _ _ _ => trivial

theorem within_nat : Within Nat (· < sizeLimit) := by
  intro v n hv
  cases v with
  | number t =>
    have hv : (Decimal.toNat? t).filter (· < sizeLimit) = some n := hv
    rw [Option.filter_eq_some_iff] at hv
    simpa using hv.2
  | _ => cases hv

theorem decode?_ofNat {n : Nat} (h : n < sizeLimit) : decode? (number (Decimal.ofNat n)) = some n := by
  show (Decimal.toNat? (Decimal.ofNat n)).filter _ = some n
  rw [Decimal.toNat?_ofNat]
  simpa using h

theorem Within.list (h : Within α P) : Within (List α) fun l => ∀ a ∈ l, P a := by
  intro v l hv
  cases v with
  | array vs => exact forall_of_mapM_eq_some hv h
  | _ => cases hv

theorem Within.pair (h : Within α P) (h' : Within β Q) : Within (α × β) fun p => P p.1 ∧ Q p.2 := by
  intro v p hv
  cases v with
  | array vs =>
    -- an array is read as a pair only if it has two items
    rcases vs with _ | ⟨v, _ | ⟨w, _ | ⟨x, vs⟩⟩⟩
    · cases hv
    · cases hv
    · obtain ⟨a, ha, hv⟩ := Option.bind_eq_some_iff.1 hv
      obtain ⟨b, hb, hv⟩ := Option.bind_eq_some_iff.1 hv
      cases hv
      exact ⟨h v a ha, h' w b hb⟩
    · cases hv
  | _ => cases hv

end Codec

namespace Serial

open Codec

theorem decimals_nat : (ofCodec within_nat).Decimals Int.ofNat where
  write? n _ := by
    rw [write?_ofCodec]
    simp [encode, text, tokens, Token.text, Decimal.ofInt]
  read? n hn := by
    rw [read?_ofCodec, ofText?_ofInt]
    exact decode?_ofNat hn

theorem decimals_cell : (ofCodec (α := Cell) within_true).Decimals Int64.toInt where
  write? c _ := by
    rw [write?_ofCodec]
    simp [encode, text, tokens, Token.text]
  read? c _ := by
    rw [read?_ofCodec, ofText?_ofInt]
    show (if Decimal.ofInt c.toInt = ['-', '0'] then none else _) = some c
    rw [if_neg (Decimal.ofInt_ne_neg_zero _), Decimal.toInt?_ofInt, Option.bind_some, Cell.ofInt?_toInt]

variable {α β : Type} [Codec α] [Codec β] {P : α → Prop} {Q : β → Prop}

theorem arrayOf_list {R : List α → Prop} (hl : Within (List α) R) (h : Within α P) :
    (ofCodec hl).ArrayOf (ofCodec h) where
  write? l ss hss := by
    obtain rfl := eq_map_of_forall₂ hss (write?_ofCodec h)
    rw [write?_ofCodec]
    show some (array (l.map encode)).text = _
    rw [text_array, List.map_map]
    rfl
  read? l ss hss := by
    obtain ⟨vs, hvs, hl'⟩ := exists_mapM_eq_some (hss.imp fun _ _ => (read?_ofCodec_eq_some_iff h).1)
    rw [read?_ofCodec, ofText?_brackets hvs, Option.bind_some]
    exact hl'

theorem pairOf_pair {R : α × β → Prop} (hp : Within (α × β) R) (h : Within α P) (h' : Within β Q) :
    (ofCodec hp).PairOf (ofCodec h) (ofCodec h') where
  write? p s t hs ht := by
    rw [write?_ofCodec] at hs ht
    cases hs
    cases ht
    rw [write?_ofCodec]
    exact congrArg some (text_array [encode p.1, encode p.2])
  read? p s t hs ht := by
    obtain ⟨v, hv, hp₁⟩ := (read?_ofCodec_eq_some_iff h).1 hs
    obtain ⟨w, hw, hp₂⟩ := (read?_ofCodec_eq_some_iff h').1 ht
    rw [read?_ofCodec, ofText?_brackets (.cons hv (.cons hw .nil)), Option.bind_some]
    show (do return (← decode? v, ← decode? w)) = some p
    rw [hp₁, hp₂]
    rfl

end Serial

/-! ## Records -/

/-- The names of fields are distinct and need no escapes. -/
structure FieldNames (names : List String) : Prop where
  nodup : names.Nodup
  plain : ∀ name ∈ names, name.toList.all Literal.isPlain = true

instance (names : List String) : Decidable (FieldNames names) :=
  decidable_of_iff (names.Nodup ∧ ∀ name ∈ names, name.toList.all Literal.isPlain = true)
    ⟨fun h => ⟨h.1, h.2⟩, fun h => ⟨h.nodup, h.plain⟩⟩

section
variable {names : List String} (hn : FieldNames names) {keys : List (List Char)}
  (hkeys : keys.Perm (names.map String.toList))
include hn hkeys

theorem FieldNames.plain_of_mem {key : List Char} (h : key ∈ keys) : ∀ c ∈ key, Literal.isPlain c = true := by
  obtain ⟨name, hname, rfl⟩ := List.mem_map.1 (hkeys.mem_iff.1 h)
  exact List.all_eq_true.1 (hn.plain name hname)

theorem FieldNames.nodup_keys : keys.Nodup :=
  -- no two names are spelled with the same characters
  hkeys.nodup_iff.2 (hn.nodup.map fun _ _ => String.toList_inj.1)

end

/-- The fields of a record are found in whatever order they come. -/
theorem fields?_object {names : List String} (hn : FieldNames names) {ms : List (List Char × Json)}
    (hkeys : (ms.map Prod.fst).Perm (names.map String.toList)) {vs : List Json}
    (h : names.Forall₂ (fun name v => (name.toList, v) ∈ ms) vs) : fields? names (object ms) = some vs := by
  have hdecode : ms.mapM (fun m => (Literal.decode? m.1).map fun k => (k, m.2)) = some ms := by
    refine mapM_eq_some_iff.2 (List.forall₂_same.2 fun m hm => ?_)
    rw [Literal.decode?_plain (hn.plain_of_mem hkeys (List.mem_map_of_mem hm)), Option.map_some]
  unfold fields?
  simp only [hdecode, Option.bind_eq_bind, Option.bind_some]
  refine mapM_eq_some_iff.2 (h.imp fun name v hv => ?_)
  rw [filter_fst_eq (hn.nodup_keys hkeys) hv]

/-- A field of a type with a codec. -/
structure CodecField (α : Type) where
  name : String
  {Value : Type}
  [codec : Codec Value]
  {Fits : Value → Prop}
  within : Codec.Within Value Fits
  get : α → Value

namespace CodecField

variable {α : Type}

instance (f : CodecField α) : Codec f.Value := f.codec

def toField (f : CodecField α) : Field α := ⟨f.name, .ofCodec f.within, f.get⟩

theorem write?_toField (f : CodecField α) (a : α) :
    f.toField.serial.write? (f.toField.get a) = some (encode (f.get a)).text :=
  Serial.write?_ofCodec f.within (f.get a)

theorem read?_toField {f : CodecField α} {a : α} {s : List Char}
    (h : f.toField.serial.read? s = some (f.toField.get a)) :
    ∃ v, ofText? s = some v ∧ decode? v = some (f.get a) :=
  (Serial.read?_ofCodec_eq_some_iff f.within).1 h

theorem map_name_toField (fields : List (CodecField α)) :
    ((fields.map toField).map fun f => f.name.toList) = (fields.map name).map String.toList := by
  rw [List.map_map, List.map_map]
  rfl

/-- The members spell an object in which the values of the fields are found. -/
theorem exists_object {fields : List (CodecField α)} (hn : FieldNames (fields.map name))
    {members : List (List Char × List Char)} {a : α}
    (hkeys : (members.map Prod.fst).Perm ((fields.map name).map String.toList))
    (hread : ∀ f ∈ fields, ∀ s, (f.name.toList, s) ∈ members →
      ∃ v, ofText? s = some v ∧ decode? v = some (f.get a)) :
    ∃ v vs, ofText? (braces members) = some v ∧ fields? (fields.map name) v = some vs ∧
      fields.Forall₂ (fun f w => decode? w = some (f.get a)) vs := by
  have hspells : ∀ m ∈ members, ∃ n, SpellsMember m n := by
    intro m hm
    have hkey := List.mem_map_of_mem (f := Prod.fst) hm
    obtain ⟨name, hname, hm₁⟩ := List.mem_map.1 (hkeys.mem_iff.1 hkey)
    obtain ⟨f, hf, rfl⟩ := List.mem_map.1 hname
    obtain ⟨v, hv, -⟩ := hread f hf m.2 (hm₁ ▸ hm)
    exact ⟨(m.1, v), rfl, hn.plain_of_mem hkeys hkey, hv⟩
  choose! parse hparse using hspells
  have hkeys' : (members.map parse).map Prod.fst = members.map Prod.fst := by
    rw [List.map_map]
    exact List.map_congr_left fun m hm => (hparse m hm).key
  have hfields : ∀ f ∈ fields, ∃ v, (f.name.toList, v) ∈ members.map parse ∧ decode? v = some (f.get a) := by
    intro f hf
    have hkey := hkeys.mem_iff.2 (List.mem_map_of_mem (List.mem_map_of_mem (f := name) hf))
    obtain ⟨⟨k, s⟩, hm, rfl⟩ := List.mem_map.1 hkey
    obtain ⟨v, hv, hget⟩ := hread f hf s hm
    have hparsed := hparse _ hm
    obtain rfl := Option.some.inj (hv.symm.trans hparsed.value)
    exact ⟨_, List.mem_map.2 ⟨_, hm, Prod.ext hparsed.key rfl⟩, hget⟩
  obtain ⟨vs, hvs⟩ := exists_forall₂_iff.2 hfields
  refine ⟨object (members.map parse), vs, ofText?_braces ?_, fields?_object hn ?_ ?_, hvs.imp fun _ _ h => h.2⟩
  · exact List.forall₂_map_right_iff.2 (List.forall₂_same.2 hparse)
  · rwa [hkeys']
  · exact List.forall₂_map_left_iff.2 (hvs.imp fun _ _ h => h.1)

end CodecField

/-- The codec writes records field by field, and reads them from the values of their fields. -/
structure Codec.OfFields (α : Type) [Codec α] (fields : List (CodecField α)) : Prop where
  names : FieldNames (fields.map CodecField.name)
  encode : ∀ a : α, encode a = record (fields.map fun f => (f.name, Codec.encode (f.get a)))
  decode? : ∀ (v : Json) (a : α), decode? v = some a ↔ ∃ vs, fields? (fields.map CodecField.name) v = some vs ∧
    fields.Forall₂ (fun f w => Codec.decode? w = some (f.get a)) vs

namespace Codec.OfFields

variable {α : Type} [Codec α] {P : α → Prop} {fields : List (CodecField α)} (hα : OfFields α fields)
include hα

theorem within (h : ∀ a, (∀ f ∈ fields, f.Fits (f.get a)) → P a) : Within α P := by
  intro v a hv
  obtain ⟨vs, -, hvs⟩ := (hα.decode? v a).1 hv
  refine h a fun f hf => ?_
  obtain ⟨w, hw⟩ := exists_forall₂_iff.1 ⟨vs, hvs⟩ f hf
  exact f.within w _ hw

theorem recordOf (h : Within α P) : (Serial.ofCodec h).RecordOf (fields.map CodecField.toField) where
  write? a ss hss := by
    obtain rfl := eq_map_of_forall₂ (List.forall₂_map_left_iff.1 hss) (CodecField.write?_toField · a)
    rw [Serial.write?_ofCodec, hα.encode, record, text_object, CodecField.map_name_toField]
    simp only [List.map_map, List.zip_map', Function.comp_def]
  read? a members hperm hread := by
    rw [CodecField.map_name_toField] at hperm
    obtain ⟨v, vs, hv, hvs, hfields⟩ := CodecField.exists_object hα.names hperm fun f hf s hs =>
      CodecField.read?_toField (hread f.toField (List.mem_map_of_mem hf) s hs)
    rw [Serial.read?_ofCodec, hv, Option.bind_some]
    exact (hα.decode? v a).2 ⟨vs, hvs, hfields⟩

end Codec.OfFields

end Json

end LinearAssignment
