/-
Texts that spell values. The reader, wherever a value may begin, comes with the text of a value to the
place after it; so an array or object is spelled by the texts of its parts, whatever blanks those have and
whatever they are like inside. What is written for a value is put together in the same way.
-/
import LinearAssignment.Json.Text
import LinearAssignment.Proofs.Json.Serial
import LinearAssignment.Proofs.Json.Token

namespace LinearAssignment.Json

/-! ## What is written -/

theorem intercalate_comma (s : List Char) (ss : List (List Char)) :
    [','].intercalate (s :: ss) = s ++ ss.flatMap (',' :: ·) := by
  induction ss generalizing s with
  | nil => simp
  | cons s' ss ih => simp [List.intercalate_cons_cons, ih]

theorem text_items (vs : List Json) :
    (tokensOfItems vs).flatMap Token.text = (vs.map text).flatMap (',' :: ·) ++ [']'] := by
  induction vs with
  | nil => rfl
  | cons v vs ih => simp [tokensOfItems, Token.text, text, ih]

theorem text_array (vs : List Json) : (array vs).text = brackets (vs.map text) := by
  cases vs with
  | nil => rfl
  | cons v vs =>
    rw [brackets, List.map_cons, intercalate_comma, List.cons_append, List.append_assoc, ← text_items]
    simp [text, tokens, Token.text]

theorem text_members (ms : List (List Char × Json)) :
    (tokensOfMembers ms).flatMap Token.text =
      (ms.map fun m => member (m.1, m.2.text)).flatMap (',' :: ·) ++ ['\x7d'] := by
  induction ms with
  | nil => rfl
  | cons m ms ih => simp [tokensOfMembers, Token.text, text, member, quoted, ih]

theorem text_object (ms : List (List Char × Json)) :
    (object ms).text = braces (ms.map fun m => (m.1, m.2.text)) := by
  cases ms with
  | nil => rfl
  | cons m ms =>
    rw [braces, List.map_map, List.map_cons, intercalate_comma, List.cons_append, List.append_assoc,
      Function.comp_def, ← text_members]
    simp [text, tokens, Token.text, member, quoted]

/-! ## The reader over a text -/

namespace Reader

/-- A value may begin, inside the frames of `stack`. -/
inductive Begins (stack : List Frame) : Reader → Prop
  | value : Begins stack (.value stack)
  | item {outer : List Frame} (h : stack = .items [] :: outer) : Begins stack (.item outer)

/-- The reader after the tokens of a text. -/
def run (r : Reader) (s : List Char) : Option Reader := (Token.list? s).bind (·.foldlM step? r)

variable {r r' : Reader} {stack outer : List Frame} {t : Token} {ts : List Token} {s rest : List Char}

theorem run_nil (r : Reader) : r.run [] = some r := by
  rw [run, Token.list?]
  rfl

theorem run_of_next? (h : Token.next? s = some (t, rest)) (hr : r.step? t = some r') :
    r.run s = r'.run rest := by
  rw [run, Token.list?_of_next? h, Option.bind_map, run]
  congr 1
  funext ts
  rw [Function.comp_apply, List.foldlM_cons, hr]
  rfl

theorem run_append_rest (hs : Token.list? s = some ts) (hr : Delimited rest)
    (h : ts.foldlM step? r = some r') : r.run (s ++ rest) = r'.run rest := by
  rw [run, Token.list?_append_rest hs hr, Option.bind_map, run]
  congr 1
  funext ts'
  rw [Function.comp_apply, List.foldlM_append, h]
  rfl

/-- Where an array could also have ended, a value begins as elsewhere. -/
theorem Begins.step? (h : Begins stack r) (ht : t ≠ .closeArray) : r.step? t = begin stack t := by
  cases h with
  | value => rfl
  | item h =>
    subst h
    cases t with
    | closeArray => exact absurd rfl ht
    | _ => rfl

/-! ### Frames around -/

/-- The same reader inside further frames. -/
def inside (outer : List Frame) : Reader → Reader
  | value stack => value (stack ++ outer)
  | item stack => item (stack ++ outer)
  | member stack => member (stack ++ outer)
  | key stack before => key (stack ++ outer) before
  | colon stack before k => colon (stack ++ outer) before k
  | next stack v => next (stack ++ outer) v

theorem begin_inside (h : begin stack t = some r) (outer : List Frame) :
    begin (stack ++ outer) t = some (r.inside outer) := by
  cases t <;> cases h <;> rfl

/-- A step does not depend on the frames that were open before. -/
theorem step?_inside (h : r.step? t = some r') (outer : List Frame) :
    (r.inside outer).step? t = some (r'.inside outer) := by
  unfold step? at h
  split at h
  case h_1 => exact begin_inside h outer
  case h_3 stack ht =>
    have hbegins : Begins (.items [] :: (stack ++ outer)) (.item (stack ++ outer)) := .item rfl
    rw [inside, hbegins.step? ht]
    exact begin_inside h outer
  case h_12 => cases h
  all_goals
    cases h
    rfl

theorem foldlM_inside (h : ts.foldlM step? r = some r') (outer : List Frame) :
    ts.foldlM step? (r.inside outer) = some (r'.inside outer) := by
  induction ts generalizing r with
  | nil =>
    cases h
    rfl
  | cons t ts ih =>
    rw [List.foldlM_cons] at h
    obtain ⟨r₁, hr₁, h⟩ := Option.bind_eq_some_iff.1 h
    rw [List.foldlM_cons, step?_inside hr₁ outer]
    exact ih h

/-- The tokens of a value bring the reader from where a value begins to where it is complete. -/
theorem Begins.foldlM {v : Json} (hr : Begins stack r) (h : ofTokens? ts = some v) :
    ts.foldlM Reader.step? r = some (.next stack v) := by
  obtain ⟨r', hr', hv⟩ := Option.bind_eq_some_iff.1 h
  obtain rfl : r' = .next [] v := by
    unfold result? at hv
    split at hv
    · exact congrArg _ (Option.some.inj hv)
    · cases hv
  have hvalue : ts.foldlM Reader.step? (.value stack) = some (.next stack v) := foldlM_inside hr' stack
  cases ts with
  | nil => cases hvalue
  | cons t ts =>
    have ht : t ≠ .closeArray := by
      rintro rfl
      cases hvalue
    rw [List.foldlM_cons, hr.step? ht]
    exact hvalue

end Reader

/-! ## Spelling -/

theorem ofText?_eq_run (s : List Char) : ofText? s = ((Reader.value []).run s).bind Reader.result? :=
  (Option.bind_assoc ..).symm

/-- The text spells the value: wherever a value may begin, the reader comes to its end. -/
def Spells (s : List Char) (v : Json) : Prop :=
  ∀ stack r, Reader.Begins stack r → ∀ rest, Delimited rest → r.run (s ++ rest) = (Reader.next stack v).run rest

/-- It does not matter what is around the text. -/
theorem ofText?_eq_some_iff {s : List Char} {v : Json} : ofText? s = some v ↔ Spells s v := by
  constructor
  · intro h
    obtain ⟨ts, hts, hv⟩ := Option.bind_eq_some_iff.1 h
    exact fun stack r hr rest hrest => Reader.run_append_rest hts hrest (hr.foldlM hv)
  · intro h
    have hrun := h [] (.value []) .value [] .done
    rw [List.append_nil, Reader.run_nil] at hrun
    rw [ofText?_eq_run, hrun]
    rfl

/-- A value with a single token. -/
theorem ofText?_of_next? {s : List Char} {t : Token} {v : Json} (hs : Token.next? s = some (t, []))
    (hv : Reader.step? (.value []) t = some (.next [] v)) : ofText? s = some v := by
  rw [ofText?_eq_run, Reader.run_of_next? hs hv, Reader.run_nil]
  rfl

theorem ofText?_ofInt (x : Int) : ofText? (Decimal.ofInt x) = some (number (Decimal.ofInt x)) :=
  ofText?_of_next? (Token.next?_ofInt x) rfl

theorem ofText?_quoted {t : List Char} (h : ∀ c ∈ t, Literal.isPlain c = true) :
    ofText? (quoted t) = some (string t) :=
  ofText?_of_next? (Token.next?_quoted h []) rfl

/-! ### Arrays and objects -/

section
variable {stack : List Frame} {r : Reader} {rest : List Char}

theorem run_items {s : List Char} {v : Json} {ss : List (List Char)} {vs : List Json} (hs : Spells s v)
    (h : ss.Forall₂ Spells vs) {before : List Json} (hr : Reader.Begins (.items before :: stack) r) :
    r.run ([','].intercalate (s :: ss) ++ ']' :: rest) =
      (Reader.next stack (array (before.reverse ++ v :: vs))).run rest := by
  induction h generalizing s v before r with
  | nil =>
    rw [List.intercalate_singleton, hs _ r hr _ (.closeArray _), Reader.run_of_next? rfl rfl,
      List.reverse_cons]
  | @cons s' v' ss vs hs' _ ih =>
    have hcomma : [','].intercalate (s :: s' :: ss) ++ ']' :: rest =
        s ++ ',' :: ([','].intercalate (s' :: ss) ++ ']' :: rest) := by
      simp [List.intercalate_cons_cons]
    rw [hcomma, hs _ r hr _ (.comma _), Reader.run_of_next? (t := .comma) rfl rfl, ih hs' .value]
    simp

theorem ofText?_brackets {ss : List (List Char)} {vs : List Json}
    (h : ss.Forall₂ (fun s v => ofText? s = some v) vs) : ofText? (brackets ss) = some (array vs) := by
  have hspells : ss.Forall₂ Spells vs := h.imp fun _ _ => ofText?_eq_some_iff.1
  rw [ofText?_eq_run, brackets, List.cons_append, Reader.run_of_next? (t := .openArray) rfl rfl]
  cases hspells with
  | nil =>
    rw [List.intercalate_nil, List.nil_append, Reader.run_of_next? (t := .closeArray) rfl rfl, Reader.run_nil]
    rfl
  | cons hs hss =>
    rw [run_items hs hss (.item rfl), Reader.run_nil]
    rfl

/-- The texts of a key that needs no escapes and of a value. -/
structure SpellsMember (m : List Char × List Char) (n : List Char × Json) : Prop where
  key : n.1 = m.1
  plain : ∀ c ∈ m.1, Literal.isPlain c = true
  value : ofText? m.2 = some n.2

theorem run_member {m : List Char × List Char} {n : List Char × Json} (h : SpellsMember m n)
    {before : List (List Char × Json)} (hr : ∀ k, r.step? (.string k) = some (.colon stack before k))
    (hrest : Delimited rest) :
    r.run (member m ++ rest) = (Reader.next (.members before n.1 :: stack) n.2).run rest := by
  have hkey : member m ++ rest = '"' :: m.1 ++ '"' :: (':' :: (m.2 ++ rest)) := by simp [member, quoted]
  rw [hkey, Reader.run_of_next? (Token.next?_quoted h.plain _) (hr m.1),
    Reader.run_of_next? (t := .colon) rfl rfl, h.key]
  exact ofText?_eq_some_iff.1 h.value _ _ .value _ hrest

theorem run_members {m : List Char × List Char} {n : List Char × Json} {ms : List (List Char × List Char)}
    {ns : List (List Char × Json)} (hm : SpellsMember m n) (h : ms.Forall₂ SpellsMember ns)
    {before : List (List Char × Json)} (hr : ∀ k, r.step? (.string k) = some (.colon stack before k)) :
    r.run ([','].intercalate ((m :: ms).map member) ++ '\x7d' :: rest) =
      (Reader.next stack (object (before.reverse ++ n :: ns))).run rest := by
  induction h generalizing m n before r with
  | nil =>
    rw [List.map_singleton, List.intercalate_singleton, run_member hm hr (.closeObject _),
      Reader.run_of_next? (t := .closeObject) rfl rfl, List.reverse_cons]
  | @cons m' n' ms ns hm' _ ih =>
    have hcomma : [','].intercalate ((m :: m' :: ms).map member) ++ '\x7d' :: rest =
        member m ++ ',' :: ([','].intercalate ((m' :: ms).map member) ++ '\x7d' :: rest) := by
      simp [List.intercalate_cons_cons]
    rw [hcomma, run_member hm hr (.comma _), Reader.run_of_next? (t := .comma) rfl rfl, ih hm' fun _ => rfl]
    simp

theorem ofText?_braces {ms : List (List Char × List Char)} {ns : List (List Char × Json)}
    (h : ms.Forall₂ SpellsMember ns) : ofText? (braces ms) = some (object ns) := by
  rw [ofText?_eq_run, braces, List.cons_append, Reader.run_of_next? (t := .openObject) rfl rfl]
  cases h with
  | nil =>
    rw [List.map_nil, List.intercalate_nil, List.nil_append, Reader.run_of_next? (t := .closeObject) rfl rfl,
      Reader.run_nil]
    rfl
  | cons hm hms =>
    rw [run_members hm hms fun _ => rfl, Reader.run_nil]
    rfl

end

end LinearAssignment.Json
