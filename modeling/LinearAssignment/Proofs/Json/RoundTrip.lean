/-
Records and their texts correspond, in every family of types that has the representations that go with
their declarations. The codecs of the library are such a family.
-/
import LinearAssignment.Json.Records
import LinearAssignment.Proofs.Json.Codec
import LinearAssignment.Proofs.Json.Records

namespace LinearAssignment.Json

/-! ## Truth values, objectives and row maps -/

namespace Codec

theorem rowOfKey?_ofNat {n : Nat} (h : n < sizeLimit) : rowOfKey? (Decimal.ofNat n) = some n := by
  have hscan : Number.scan (Decimal.ofNat n) = some (Decimal.ofNat n, []) := Number.scan_ofInt (Int.ofNat n)
  unfold rowOfKey?
  rw [hscan]
  exact decode?_ofNat h

theorem lt_of_rowOfKey? {key : List Char} {n : Nat} (h : rowOfKey? key = some n) : n < sizeLimit := by
  unfold rowOfKey? at h
  split at h
  · exact within_nat _ _ h
  · cases h

/-- The row and the column that a member of a row map stands for. -/
def assigned? (m : List Char × Json) : Option (Nat × Nat) := do
  let row ← rowOfKey? m.1
  let col : Nat ← Codec.decode? m.2
  return (row, col)

theorem decode?_rowMap (ms : List (List Char × Json)) :
    Codec.decode? (object ms) = (ms.mapM assigned?).map RowMap.ofList := by
  rw [Option.map_eq_bind]
  rfl

theorem within_rowMap : Within RowMap RowMap.Sized := by
  intro v m hv
  cases v with
  | object ms =>
    rw [decode?_rowMap] at hv
    obtain ⟨entries, hentries, rfl⟩ := Option.map_eq_some_iff.1 hv
    have hsized : ∀ e ∈ entries, e.1 < sizeLimit ∧ e.2 < sizeLimit := by
      refine forall_of_mapM_eq_some hentries fun q e hq => ?_
      obtain ⟨row, hrow, hq⟩ := Option.bind_eq_some_iff.1 hq
      obtain ⟨col, hcol, hq⟩ := Option.bind_eq_some_iff.1 hq
      cases hq
      exact ⟨lt_of_rowOfKey? hrow, within_nat _ _ hcol⟩
    exact fun e he => hsized e (RowMap.mem_of_mem_ofList he)
  | _ => cases hv

end Codec

namespace Serial

open Codec

theorem words_bool : (ofCodec (α := Bool) within_true).Words Serials.boolWords where
  write? w hw := by
    simp only [Serials.boolWords, List.mem_cons, List.not_mem_nil, or_false] at hw
    rw [write?_ofCodec]
    rcases hw with rfl | rfl <;> rfl
  read? w hw := by
    simp only [Serials.boolWords, List.mem_cons, List.not_mem_nil, or_false] at hw
    rw [read?_ofCodec]
    rcases hw with rfl | rfl
    · rw [ofText?_of_next? (t := .bool true) rfl rfl]; rfl
    · rw [ofText?_of_next? (t := .bool false) rfl rfl]; rfl

theorem variantOf_objective : (ofCodec (α := Objective) within_true).VariantOf
    [.minimizeCost, .maximizeUtility] Objective.name where
  write? o _ := by
    rw [write?_ofCodec]
    simp [encode, text, tokens, Token.text, quoted]
  read? o _ := by
    have hplain : ∀ c ∈ o.name.toList, Literal.isPlain c = true := by
      apply List.all_eq_true.1
      cases o <;> decide
    rw [read?_ofCodec, ofText?_quoted hplain]
    show (Literal.decode? o.name.toList).bind objective? = _
    rw [Literal.decode?_plain hplain, Option.bind_some, objective?]
    simp only [String.toList_inj]

theorem mapOf_rowMap : (ofCodec within_rowMap).MapOf (ofCodec within_nat) where
  write? m ss hss := by
    obtain rfl := eq_map_of_forall₂ hss fun e => write?_ofCodec within_nat e.2
    rw [write?_ofCodec]
    show some (object (m.entries.map fun e => (Decimal.ofNat e.1, encode e.2))).text = _
    rw [text_object, List.map_map, List.zip_map']
    rfl
  read? es ss _ hkeys hss := by
    have hentries : es.Forall₂ (fun e m => ∃ n, SpellsMember m n ∧ assigned? n = some e)
        ((es.map fun e => Decimal.ofNat e.1).zip ss) := by
      refine (forall₂_zip_map ((List.forall₂_and_left _ _).2 ⟨hkeys, hss⟩) _).imp fun e m hm => ?_
      obtain ⟨hkey, hrow, hcol⟩ := hm
      obtain ⟨v, hv, hdecode⟩ := (read?_ofCodec_eq_some_iff within_nat).1 hcol
      refine ⟨(m.1, v), ⟨rfl, fun c hc => ?_, hv⟩, ?_⟩
      · exact Literal.isPlain_of_isDigit (Decimal.isDigit_of_mem_ofNat (hkey ▸ hc))
      · simp [assigned?, hkey, rowOfKey?_ofNat hrow, hdecode]
    obtain ⟨ns, hns, hes⟩ := exists_mapM_eq_some hentries
    rw [read?_ofCodec, ofText?_braces hns, Option.bind_some, decode?_rowMap, hes, Option.map_some]

/-- Rows are written in the order of their numbers, not of their digits. -/
example : write (RowMap.ofList [(10, 1), (2, 3), (10, 4)]) = "\x7b\"2\":3,\"10\":4\x7d" := by decide

end Serial

/-! ## Records -/

namespace Codec

def matrixFields : List (CodecField Matrix) :=
  [⟨"rows", within_nat, Matrix.rows⟩, ⟨"cols", within_nat, Matrix.cols⟩,
    ⟨"data", within_true, (·.data.toList)⟩]

theorem ofFields_matrix : OfFields Matrix matrixFields where
  names := by decide
  encode _ := rfl
  decode? v m := by
    constructor
    · intro hv
      obtain ⟨vs, hvs, hm⟩ := Option.bind_eq_some_iff.1 hv
      refine ⟨vs, hvs, ?_⟩
      split at hm
      · simp only [Option.bind_eq_bind, Option.bind_eq_some_iff] at hm
        obtain ⟨data, hdata, rows, hrows, cols, hcols, hm⟩ := hm
        cases hm
        exact .cons hrows (.cons hcols (.cons hdata .nil))
      · cases hm
    · rintro ⟨vs, hvs, hrows | ⟨hrows, hcols | ⟨hcols, hdata | ⟨hdata, ⟨⟩⟩⟩⟩⟩
      refine Option.bind_eq_some_iff.2 ⟨_, hvs, ?_⟩
      simp only [Option.bind_eq_bind, Option.bind_eq_some_iff]
      exact ⟨_, hdata, _, hrows, _, hcols, rfl⟩

theorem within_matrix : Within Matrix Matrix.Sized := by
  refine ofFields_matrix.within fun m hm => ?_
  simp only [matrixFields, List.forall_mem_cons] at hm
  exact ⟨hm.1, hm.2.1⟩

/-- Fields in another order, blanks and fields of other names are read, and are gone when the value is
written. -/
example : (read? "\x7b \"data\": [7], \"note\": null, \"cols\": 0, \"rows\": 2\x7d").map (write (α := Matrix)) =
    some "\x7b\"rows\":2,\"cols\":0,\"data\":[7]\x7d" := by cbv

def solutionFields : List (CodecField Solution) :=
  [⟨"success", within_true, Solution.success⟩, ⟨"total", within_true, Solution.total⟩,
    ⟨"assignment", within_matrix, Solution.assignment⟩,
    ⟨"assignment_map", (within_nat.pair within_nat).list, Solution.pairs⟩,
    ⟨"cost", within_matrix, Solution.reduced⟩, ⟨"matrix", within_matrix, Solution.square⟩,
    ⟨"rows", within_nat, Solution.rows⟩, ⟨"cols", within_nat, Solution.cols⟩,
    ⟨"mode", within_true, Solution.objective⟩]

theorem ofFields_solution : OfFields Solution solutionFields where
  names := by decide
  encode _ := rfl
  decode? v s := by
    constructor
    · intro hv
      obtain ⟨vs, hvs, hs⟩ := Option.bind_eq_some_iff.1 hv
      refine ⟨vs, hvs, ?_⟩
      split at hs
      · simp only [Option.bind_eq_bind, Option.bind_eq_some_iff] at hs
        obtain ⟨success, hsuccess, total, htotal, assignment, hassignment, pairs, hpairs, reduced, hreduced,
          square, hsquare, rows, hrows, cols, hcols, objective, hobjective, hs⟩ := hs
        cases hs
        exact .cons hsuccess (.cons htotal (.cons hassignment (.cons hpairs (.cons hreduced (.cons hsquare
          (.cons hrows (.cons hcols (.cons hobjective .nil))))))))
      · cases hs
    · rintro ⟨vs, hvs, hsuccess | ⟨hsuccess, htotal | ⟨htotal, hassignment | ⟨hassignment, hpairs | ⟨hpairs,
        hreduced | ⟨hreduced, hsquare | ⟨hsquare, hrows | ⟨hrows, hcols | ⟨hcols, hobjective | ⟨hobjective,
        ⟨⟩⟩⟩⟩⟩⟩⟩⟩⟩⟩⟩
      refine Option.bind_eq_some_iff.2 ⟨_, hvs, ?_⟩
      simp only [Option.bind_eq_bind, Option.bind_eq_some_iff]
      exact ⟨_, hsuccess, _, htotal, _, hassignment, _, hpairs, _, hreduced, _, hsquare, _, hrows, _, hcols, _,
        hobjective, rfl⟩

theorem within_solution : Within Solution Solution.Sized := by
  refine ofFields_solution.within fun s hs => ?_
  simp only [solutionFields, List.forall_mem_cons] at hs
  obtain ⟨-, -, hassignment, hpairs, hreduced, hsquare, hrows, hcols, -⟩ := hs
  exact ⟨hassignment, hpairs, hreduced, hsquare, hrows, hcols⟩

def summaryFields : List (CodecField Summary) :=
  [⟨"success", within_true, Summary.success⟩, ⟨"total_cost", within_true, Summary.total⟩,
    ⟨"assignment", within_true, Summary.assignment⟩, ⟨"assignment_map", within_rowMap, Summary.columns⟩,
    ⟨"cost", within_true, Summary.reduced⟩, ⟨"matrix", within_true, Summary.square⟩]

theorem ofFields_summary : OfFields Summary summaryFields where
  names := by decide
  encode _ := rfl
  decode? v s := by
    constructor
    · intro hv
      obtain ⟨vs, hvs, hs⟩ := Option.bind_eq_some_iff.1 hv
      refine ⟨vs, hvs, ?_⟩
      split at hs
      · simp only [Option.bind_eq_bind, Option.bind_eq_some_iff] at hs
        obtain ⟨success, hsuccess, total, htotal, assignment, hassignment, columns, hcolumns, reduced, hreduced,
          square, hsquare, hs⟩ := hs
        cases hs
        exact .cons hsuccess (.cons htotal (.cons hassignment (.cons hcolumns (.cons hreduced (.cons hsquare
          .nil)))))
      · cases hs
    · rintro ⟨vs, hvs, hsuccess | ⟨hsuccess, htotal | ⟨htotal, hassignment | ⟨hassignment, hcolumns | ⟨hcolumns,
        hreduced | ⟨hreduced, hsquare | ⟨hsquare, ⟨⟩⟩⟩⟩⟩⟩⟩⟩
      refine Option.bind_eq_some_iff.2 ⟨_, hvs, ?_⟩
      simp only [Option.bind_eq_bind, Option.bind_eq_some_iff]
      exact ⟨_, hsuccess, _, htotal, _, hassignment, _, hcolumns, _, hreduced, _, hsquare, rfl⟩

theorem within_summary : Within Summary Summary.Sized := by
  refine ofFields_summary.within fun s hs => ?_
  simp only [summaryFields, List.forall_mem_cons] at hs
  exact hs.2.2.2.1

end Codec

/-! ## Round trips -/

/-- Every type with its codec. -/
def codecs : Serials where
  bool := .ofCodec Codec.within_true
  size := .ofCodec Codec.within_nat
  cell := .ofCodec Codec.within_true
  cells := .ofCodec Codec.within_true
  nested := .ofCodec Codec.within_true
  pair := .ofCodec (Codec.within_nat.pair Codec.within_nat)
  pairs := .ofCodec (Codec.within_nat.pair Codec.within_nat).list
  columns := .ofCodec Codec.within_rowMap
  matrix := .ofCodec Codec.within_matrix
  objective := .ofCodec Codec.within_true
  solution := .ofCodec Codec.within_solution
  summary := .ofCodec Codec.within_summary

theorem conforming_codecs : codecs.Conforming where
  bool := Serial.words_bool
  size := Serial.decimals_nat
  cell := Serial.decimals_cell
  cells := Serial.arrayOf_list Codec.within_true Codec.within_true
  nested := Serial.arrayOf_list Codec.within_true Codec.within_true
  pair := Serial.pairOf_pair (Codec.within_nat.pair Codec.within_nat) Codec.within_nat Codec.within_nat
  pairs := Serial.arrayOf_list (Codec.within_nat.pair Codec.within_nat).list
    (Codec.within_nat.pair Codec.within_nat)
  columns := Serial.mapOf_rowMap
  matrix := Codec.ofFields_matrix.recordOf Codec.within_matrix
  objective := Serial.variantOf_objective
  solution := Codec.ofFields_solution.recordOf Codec.within_solution
  summary := Codec.ofFields_summary.recordOf Codec.within_summary

/-- Matrices, objectives, solutions and summaries correspond to their texts, whatever writes and reads
them, as long as it keeps to their representations. -/
theorem records_roundTrip (S : Serials) (h : S.Conforming) : S.matrix.RoundTrips ∧ S.objective.RoundTrips ∧
    S.solution.RoundTrips ∧ S.summary.RoundTrips :=
  ⟨Serial.roundTrips_of_restores fun _ => h.restores_matrix,
    Serial.roundTrips_of_restores fun o _ => h.restores_objective o,
    Serial.roundTrips_of_restores fun _ => h.restores_solution,
    Serial.roundTrips_of_restores fun _ => h.restores_summary⟩

/-- The codecs keep to them. -/
theorem records_roundTrip_codecs : codecs.Conforming ∧ codecs.matrix.RoundTrips ∧ codecs.objective.RoundTrips ∧
    codecs.solution.RoundTrips ∧ codecs.summary.RoundTrips :=
  ⟨conforming_codecs, records_roundTrip codecs conforming_codecs⟩

end LinearAssignment.Json
