import Mathlib
import Nonassoc.Proofs.FreeRuns
import Nonassoc.Proofs.Lines
import Nonassoc.Proofs.NameOrder
import Nonassoc.Proofs.Workers

/-!
# Responses

A request is bad if its identities cannot be read, if there are none, or if there is no field of its
characteristic (`Request.IsBad`). Then nothing is written. Otherwise its identities and its field are
known (`Request.Reads`), and the free algebra one degree below the target has all the products that
are needed, so that no run fails and the response is a full report (`Response.Reports`). How the
matchings are evaluated, and whether identities are arguments or lines, does not show in it. Main
result: `Response.ofRequest_allOrNothing`.
-/

namespace Nonassoc

open Multidegree (Name Table)
open Search (reached)

/-! ## Runs over the free algebra -/

section
variable {a : PartialAlgebra} {d : Nat} (ha : a.IsFreeTo d) {target : Name}
  (ht : a.table.contains target = true) (hd : a.table.degreeOf target ≤ d + 1) (config : Config)
include ha ht hd

/-- No run for an identity whose matchings fit in memory fails over the free algebra. -/
theorem PartialAlgebra.IsFreeTo.isFinished {e : Identity} (he : e.IsNumbered)
    (hz : ∃ z, Linearization.ofIdentity e a = .ok z) :
    (generate e target a config .unlimited).1.status.IsFinished ∧
      (generate e target a config .unlimited).2 = .unlimited := by
  refine ⟨isFinished_iff.2 fun f hf => ?_, (generate_failsOnly ha.built he ht).1 rfl⟩
  rcases (generate_failsOnly ha.built he ht).2.2 f hf with herror | ⟨l, r, -, hnone, hbelow⟩
  · obtain ⟨z, hz⟩ := hz
    cases hz.symm.trans herror
  · obtain ⟨x, hx⟩ := ha.product?_of_isBelow ht hd hbelow
    cases hnone.symm.trans hx

theorem PartialAlgebra.IsFreeTo.isFinished_generateFrom {identities : List Identity}
    (he : ∀ e ∈ identities, e.IsNumbered ∧ ∃ z, Linearization.ofIdentity e a = .ok z)
    (equations : Array Equation) (stats : Stats) :
    (generateFrom target a config identities .unlimited equations stats).1.status.IsFinished := by
  induction identities generalizing equations stats with
  | nil =>
    simp only [generateFrom, Outcome.ofResult, Outcome.ofEquations]
    split
    · exact .inr rfl
    · exact .inl rfl
  | cons e rest ih =>
    obtain ⟨hnumbered, hz⟩ := he e List.mem_cons_self
    obtain ⟨hfinished, htoken⟩ := ha.isFinished ht hd config hnumbered hz
    rw [(generateFrom_of_isFinished rest equations stats hfinished).1, htoken]
    exact ih (fun e he' => he e (List.mem_cons_of_mem _ he')) _ _

end

theorem Multidegree.Table.target_of_ofTarget {target : Multidegree} {t : Table}
    (h : Table.ofTarget target = .ok t) : t.target = target := by
  unfold Table.ofTarget at h
  split at h
  · cases h
    rfl
  · cases h

namespace Command

/-! ## Targets -/

/-- A multidegree has a multiplicity for each piece of its text, of which there is at least one. -/
theorem generators_pos_of_parse {text : String} {m : Multidegree}
    (h : Multidegree.parse text = .ok m) : 0 < m.generators := by
  unfold Multidegree.parse at h
  split at h
  · rename_i components hread
    cases h
    rw [Multidegree.read?] at hread
    cases hpieces : Text.pieces ',' (Multidegree.unwrap (Text.trim text.toList)) with
    | nil => exact absurd hpieces (Text.pieces_ne_nil _ _)
    | cons piece pieces =>
      rw [hpieces, List.mapM_cons] at hread
      obtain ⟨x, -, hread⟩ := Option.bind_eq_some_iff.1 hread
      obtain ⟨xs, -, hread⟩ := Option.bind_eq_some_iff.1 hread
      cases hread
      exact Nat.succ_pos _
  · cases h

namespace Options

/-- The target, if one was given, has a generator. -/
def HasGenerators (o : Options) : Prop := ∀ m, o.target = some m → 0 < m.generators

variable {o o' : Options}

theorem once_eq_ok {α : Type} {old new r : Option α} (h : once old new = .ok r) : r = new := by
  unfold once at h
  split at h
  · cases h
    rfl
  · cases h

theorem HasGenerators.set (h : o.HasGenerators) {value : String} {s : Setting}
    (ho : o.set value s = .ok o') : o'.HasGenerators := by
  cases s with
  | target =>
    obtain ⟨t, ht, ho⟩ := bind_eq_ok.1 ho
    cases ho
    intro m hm
    obtain rfl := once_eq_ok ht
    cases hparse : Multidegree.parse value with
    | error e => rw [hparse] at hm; cases hm
    | ok m' =>
      rw [hparse] at hm
      cases hm
      exact generators_pos_of_parse hparse
  | input | output | field | threads | batchSize =>
    obtain ⟨_, -, ho⟩ := bind_eq_ok.1 ho
    cases ho
    exact h

theorem HasGenerators.turnOn (h : o.HasGenerators) {s : Switch} (ho : o.turnOn s = .ok o') :
    o'.HasGenerators := by
  cases s with
  | sequential | basis | quiet =>
    obtain ⟨_, -, ho⟩ := bind_eq_ok.1 ho
    cases ho
    exact h
  | verbose =>
    cases ho
    exact h
  | help | version => cases ho

theorem HasGenerators.readShort (h : o.HasGenerators) {l : List Char} {waiting : Option Setting}
    (ho : o.readShort l = .ok (o', waiting)) : o'.HasGenerators := by
  fun_induction Options.readShort o l with
  | case1 =>
    cases ho
    exact h
  | case2 o c rest s hs ih =>
    obtain ⟨o₁, ho₁, ho⟩ := bind_eq_ok.1 ho
    exact ih o₁ (h.turnOn ho₁) ho
  | case3 =>
    cases ho
    exact h
  | case4 | case5 =>
    obtain ⟨o₁, ho₁, ho⟩ := bind_eq_ok.1 ho
    cases ho
    exact h.set ho₁
  | case6 => cases ho

theorem HasGenerators.readLong (h : o.HasGenerators) {l : List Char} {waiting : Option Setting}
    (ho : o.readLong l = .ok (o', waiting)) : o'.HasGenerators := by
  simp only [Options.readLong] at ho
  split at ho
  · obtain ⟨o₁, ho₁, ho⟩ := bind_eq_ok.1 ho
    cases ho
    exact h.turnOn ho₁
  · cases ho
  · cases ho
    exact h
  · obtain ⟨o₁, ho₁, ho⟩ := bind_eq_ok.1 ho
    cases ho
    exact h.set ho₁
  · cases ho

theorem HasGenerators.readFrom (h : o.HasGenerators) {args : List String}
    {waiting : Option Setting} (ho : o.readFrom waiting args = .ok o') : o'.HasGenerators := by
  fun_induction Options.readFrom waiting o args with
  | case1 => cases ho
  | case2 =>
    cases ho
    exact h
  | case3 => cases ho
  | case4 o arg rest s _ ih =>
    obtain ⟨o₁, ho₁, ho⟩ := bind_eq_ok.1 ho
    exact ih o₁ (h.set ho₁) ho
  | case5 =>
    cases ho
    exact h
  | case6 o arg rest long _ _ ih =>
    obtain ⟨⟨o₁, waiting⟩, ho₁, ho⟩ := bind_eq_ok.1 ho
    exact ih o₁ waiting (h.readLong ho₁) ho
  | case7 o arg rest c short _ _ _ ih =>
    obtain ⟨⟨o₁, waiting⟩, ho₁, ho⟩ := bind_eq_ok.1 ho
    exact ih o₁ waiting (h.readShort ho₁) ho
  | case8 o arg rest _ _ _ ih => exact ih h ho

end Options

/-! ## Requests -/

namespace Request

/-- Why nothing is reported. -/
inductive IsBad (r : Request) (content : Except FileError String) : Prop
  | unreadable {e : FileError} :
      (∀ texts, r.source ≠ .arguments texts) → content = .error e → IsBad r content
  | badIdentity {texts : List String} {text : String} {e : Identity.ReadError} :
      r.texts content = .ok texts → text ∈ texts → Identity.parse text = .error e → IsBad r content
  | noIdentities : r.texts content = .ok [] → IsBad r content
  | badField {e : FieldError} :
      PrimeField.ofCharacteristic r.characteristic = .error e → IsBad r content

/-- What is read for a request: its identities, at least one, and the field of its characteristic. -/
structure Reads (r : Request) (content : Except FileError String) (identities : List Identity)
    (field : PrimeField) : Prop where
  texts : ∃ texts, r.texts content = .ok texts ∧
    List.Forall₂ (fun text e => Identity.parse text = .ok e) texts identities
  ne_nil : identities ≠ []
  field : PrimeField.ofCharacteristic r.characteristic = .ok field

variable {r : Request} {content : Except FileError String} {identities : List Identity}
  {field : PrimeField}

theorem Reads.not_isBad (h : r.Reads content identities field) : ¬ r.IsBad content := by
  obtain ⟨texts, htexts, hparse⟩ := h.texts
  intro hbad
  cases hbad with
  | @unreadable e hsource hcontent =>
    subst hcontent
    unfold Request.texts at htexts
    split at htexts
    · exact hsource _ ‹_›
    all_goals cases htexts
  | badIdentity htexts' htext he =>
    cases htexts.symm.trans htexts'
    obtain ⟨e', -, he'⟩ := exists_of_forall₂ hparse htext
    cases he.symm.trans he'
  | noIdentities hnone =>
    cases htexts.symm.trans hnone
    exact h.ne_nil (List.forall₂_nil_left_iff.1 hparse)
  | badField hfield => cases h.field.symm.trans hfield

theorem exists_reads (h : ¬ r.IsBad content) : ∃ identities field, r.Reads content identities field := by
  cases htexts : r.texts content with
  | error e =>
    unfold Request.texts at htexts
    split at htexts
    · cases htexts
    all_goals
      rename_i hsource
      split at htexts
      · cases htexts
      · exact absurd (.unreadable (by rw [hsource]; exact fun _ => nofun) rfl) h
  | ok texts =>
    cases hidentities : readIdentities texts with
    | error e =>
      obtain ⟨text, htext, he⟩ := exists_of_mapM_eq_error hidentities
      obtain ⟨e', he', -⟩ := mapError_eq_error.1 he
      exact absurd (.badIdentity htexts htext he') h
    | ok identities =>
      have hparse := readIdentities_eq_ok_iff.1 hidentities
      cases hfield : PrimeField.ofCharacteristic r.characteristic with
      | error e => exact absurd (.badField hfield) h
      | ok field =>
        refine ⟨identities, field, ⟨texts, htexts, hparse⟩, fun hnil => h (.noIdentities ?_), hfield⟩
        subst hnil
        rw [htexts, List.forall₂_nil_right_iff.1 hparse]

/-- The identities that are read, the first of them that cannot be read being reported. -/
def read? (r : Request) (content : Except FileError String) : Except Error (List Identity) := do
  readIdentities (← r.texts content)

theorem read?_arguments {texts : List String} (h : r.source = .arguments texts) :
    r.read? content = readIdentities texts := by
  unfold read? Request.texts
  rw [h]
  rfl

theorem read?_lines (h : ∀ texts, r.source ≠ .arguments texts) (text : String) :
    r.read? (.ok text) = readIdentities (identityLines text) := by
  unfold read? Request.texts
  split
  · exact absurd ‹_› (h _)
  all_goals rfl

/-- The report on an outcome over an algebra. -/
def reportOf (r : Request) (a : PartialAlgebra) (o : Outcome) : Report where
  lines := (if r.basis then basisLines a else []) ++
    (if r.quiet then [] else equationLines o.equations) ++ ["; " ++ o.stats.text]
  status := o.status

/-- The report on identities that have been read. -/
def reportOn (r : Request) (identities : List Identity) : Except Error Report :=
  if identities.isEmpty then .error .noIdentities
  else do
    let field ← (PrimeField.ofCharacteristic r.characteristic).mapError .field
    let a ← (PartialAlgebra.free field r.target (r.target.degree - 1)).mapError .algebra
    return r.reportOf a (generateAll identities a.table.targetName a ⟨r.batchSize⟩ .unlimited).1

theorem report_eq (r : Request) (content : Except FileError String) :
    r.report content = r.read? content >>= r.reportOn := by
  rw [read?, bind_assoc]
  refine bind_congr fun texts => bind_congr fun identities => ?_
  unfold reportOn
  cases identities.isEmpty <;> rfl

theorem exists_reads_of_report {report : Report} (h : r.report content = .ok report) :
    ∃ identities field, r.Reads content identities field := by
  rw [report_eq] at h
  obtain ⟨identities, hidentities, h⟩ := bind_eq_ok.1 h
  obtain ⟨texts, htexts, hread⟩ := bind_eq_ok.1 hidentities
  unfold reportOn at h
  split at h
  · cases h
  · rename_i hne
    obtain ⟨field, hfield, -⟩ := bind_eq_ok.1 h
    exact ⟨identities, field, ⟨texts, htexts, readIdentities_eq_ok_iff.1 hread⟩,
      fun hnil => hne (List.isEmpty_iff.2 hnil), mapError_eq_ok.1 hfield⟩

/-- A bad request has no report. -/
theorem IsBad.exists_error (h : r.IsBad content) : ∃ e, r.report content = .error e := by
  cases hreport : r.report content with
  | error e => exact ⟨e, rfl⟩
  | ok report =>
    obtain ⟨identities, field, hreads⟩ := exists_reads_of_report hreport
    exact absurd h hreads.not_isBad

/-- The report on identities that have been read, over the free algebra. -/
theorem reportOn_eq (hne : identities ≠ [])
    (hfield : PrimeField.ofCharacteristic r.characteristic = .ok field) {a : PartialAlgebra}
    (ha : PartialAlgebra.free field r.target (r.target.degree - 1) = .ok a) :
    r.reportOn identities = .ok (r.reportOf a
      (generateAll identities a.table.targetName a ⟨r.batchSize⟩ .unlimited).1) := by
  have hfield' := mapError_eq_ok (f := Error.field).2 hfield
  have ha' := mapError_eq_ok (f := Error.algebra).2 ha
  rw [reportOn, if_neg (mt List.isEmpty_iff.1 hne), bind_eq_ok]
  exact ⟨field, hfield', bind_eq_ok.2 ⟨a, ha', rfl⟩⟩

/-- With a token that grants every poll, the batch size does not matter. -/
theorem generateAll_unlimited (identities : List Identity) (target : Name) (a : PartialAlgebra)
    (config config' : Config) :
    generateAll identities target a config .unlimited =
      generateAll identities target a config' .unlimited := by
  unfold generateAll
  split
  · rfl
  · exact generateFrom_unlimited _ _ _

theorem reportOn_batchSize (r : Request) (batchSize : Nat) :
    { r with batchSize }.reportOn = r.reportOn := by
  funext identities
  unfold reportOn
  split
  · rfl
  · refine bind_congr fun field => bind_congr fun a => ?_
    rw [generateAll_unlimited _ _ _ _ ⟨r.batchSize⟩]
    rfl

end Request

/-! ## Responses -/

/-- There is a line for every basis element. -/
theorem exists_basisLine {a : PartialAlgebra} (ha : a.Built) {b : BasisId} (h : b < a.basis.size) :
    ∃ line, basisLine a b = .ok line := by
  have hentry : a.basis.entry b = .ok a.basis.entries[b] := by
    rw [Basis.entry, Array.getElem?_eq_getElem h]
  have hname := Basis.nameOf_eq_ok_iff.2 ⟨_, Array.getElem?_eq_getElem h, rfl⟩
  obtain ⟨m, hm⟩ := Table.contains_iff.1 (ha.basis.contains_of_nameOf hname)
  exact ⟨_, bind_eq_ok.2 ⟨_, hentry, bind_eq_ok.2 ⟨m, hm, rfl⟩⟩⟩

theorem mapM_basisLine {a : PartialAlgebra} (ha : a.Built) :
    (List.range a.basis.size).mapM (basisLine a) = .ok (basisLines a) := by
  have hline := fun b (hb : b ∈ List.range a.basis.size) => exists_basisLine ha (List.mem_range.1 hb)
  choose! line hline using hline
  rw [mapM_eq_ok_map hline, basisLines, ← List.filterMap_eq_map]
  refine congrArg Except.ok (List.filterMap_congr fun b hb => ?_)
  rw [hline b hb]
  rfl

/-- Equations are numbered from zero. -/
theorem getElem?_equationLines (equations : List Equation) (i : Nat) :
    (equationLines equations)[i]? =
      equations[i]?.map fun e => toString i ++ ": " ++ e.text ++ " = 0" := by
  rw [equationLines, List.getElem?_map, List.getElem?_zipIdx, Option.map_map, Nat.zero_add]
  rfl

namespace Response

/-- Nothing is written, neither to standard output nor to a file, and the exit code says so. -/
structure WritesNothing (r : Response) : Prop where
  code : r.code = 1
  written : r.written = ""
  file : r.file = none

/-- The response is the whole report on an outcome over an algebra: a line for each basis element, if
they are asked for, a line for each equation, unless they are not wanted, and the counts. -/
structure Reports (response : Response) (r : Request) (a : PartialAlgebra) (o : Outcome) : Prop where
  code : response.code = 0
  complaint : response.complaint = none
  file : response.file = r.output
  written : ∃ basis equations, (List.range a.basis.size).mapM (basisLine a) = .ok basis ∧
    (∀ i : Nat, equations[i]? = o.equations[i]?.map fun e : Equation =>
      toString i ++ ": " ++ e.text ++ " = 0") ∧
    response.written = String.join (((if r.basis then basis else []) ++
      (if r.quiet then [] else equations) ++ ["; " ++ o.stats.text]).map (· ++ "\n"))

/-- What a response writes, to which file, and the exit code. -/
def output (r : Response) : Nat × String × Option String := (r.code, r.written, r.file)

/-- A bad request is refused, and nothing is written. -/
theorem writesNothing_of_isBad {r : Request} {content : Except FileError String}
    (h : r.IsBad content) : (ofRequest r content).WritesNothing := by
  obtain ⟨e, he⟩ := h.exists_error
  rw [ofRequest, he]
  exact ⟨rfl, rfl, rfl⟩

theorem ofRequest_batchSize (r : Request) (batchSize : Nat) (content : Except FileError String) :
    ofRequest { r with batchSize } content = ofRequest r content := by
  unfold ofRequest
  rw [Request.report_eq, Request.report_eq, Request.reportOn_batchSize]
  rfl

/-- Requests that read the same identities and report alike on them have the same output. -/
theorem output_congr {r r' : Request} {content content' : Except FileError String}
    (hreport : r.reportOn = r'.reportOn) (houtput : r.output = r'.output)
    (h : ∀ identities, r.read? content = .ok identities ↔ r'.read? content' = .ok identities) :
    (ofRequest r content).output = (ofRequest r' content').output := by
  unfold ofRequest
  rw [Request.report_eq, Request.report_eq, hreport, houtput]
  cases hread : r.read? content with
  | ok identities => rw [(h identities).1 hread]
  | error e =>
    cases hread' : r'.read? content' with
    | ok identities => cases hread.symm.trans ((h identities).2 hread')
    | error e' => rfl

/-- A run that comes to its end is reported. -/
theorem reports_of_isFinished {r : Request} {content : Except FileError String} {a : PartialAlgebra}
    (ha : a.Built) {o : Outcome} (ho : o.status.IsFinished)
    (h : r.report content = .ok (r.reportOf a o)) : (ofRequest r content).Reports r a o := by
  have hcomplaint : (r.reportOf a o).complaint? = none := by
    rcases ho with ho | ho <;> simp only [Report.complaint?, Request.reportOf, ho]
  rw [ofRequest, h]
  simp only [hcomplaint]
  exact ⟨rfl, rfl, rfl, _, _, mapM_basisLine ha, getElem?_equationLines o.equations, rfl⟩

end Response

namespace Request

variable {r : Request} {content : Except FileError String} {identities : List Identity}
  {field : PrimeField}

theorem Reads.isNumbered (h : r.Reads content identities field) {e : Identity}
    (he : e ∈ identities) : e.IsNumbered := by
  obtain ⟨texts, -, hparse⟩ := h.texts
  obtain ⟨text, -, htext⟩ := exists_of_forall₂ hparse.flip he
  obtain ⟨words, -, hwords⟩ := Identity.parse_eq_ok_iff.1 htext
  exact Identity.isNumbered_of_ofWords hwords

theorem Reads.report_eq (h : r.Reads content identities field) {a : PartialAlgebra}
    (ha : PartialAlgebra.free field r.target (r.target.degree - 1) = .ok a) :
    r.report content = .ok (r.reportOf a
      (generateAll identities a.table.targetName a ⟨r.batchSize⟩ .unlimited).1) := by
  obtain ⟨texts, htexts, hparse⟩ := h.texts
  rw [Request.report_eq, bind_eq_ok]
  exact ⟨identities, bind_eq_ok.2 ⟨texts, htexts, readIdentities_eq_ok_iff.2 hparse⟩,
    reportOn_eq h.ne_nil h.field ha⟩

/-- If the permutations of all identities that fit the target fit in memory, the run over the free
algebra comes to its end, and its outcome is reported. Its equations are found whatever the batches
are and whoever works on them. -/
theorem Reads.exists_reports (h : r.Reads content identities field)
    (hpos : 0 < r.target.generators) (hsize : r.target.generators ≤ byteCapacity)
    (hfits : ∀ e ∈ identities, e.degree ≤ r.target.degree → ∃ n, matchingCount e.degrees = .ok n) :
    ∃ a o, PartialAlgebra.free field r.target (r.target.degree - 1) = .ok a ∧
      (∀ config, (generateAll identities a.table.targetName a config .unlimited).1 = o) ∧
      o.status.IsFinished ∧ (Response.ofRequest r content).Reports r a o ∧
      ∀ e ∈ identities, e.degree ≤ r.target.degree → ∃ z, Linearization.ofIdentity e a = .ok z ∧
        ∀ s ∈ reached a.table a.basis a.table.targetName e.degrees, z.IsShareable s := by
  obtain ⟨a, ha, -, htable, hfree⟩ :=
    PartialAlgebra.exists_free field hpos hsize (r.target.degree - 1)
  have hentry : a.table.entry a.table.targetName = .ok r.target :=
    Table.target_of_ofTarget htable ▸ Table.entry_targetName
  have ht : a.table.contains a.table.targetName = true := Table.contains_iff.2 ⟨_, hentry⟩
  have hdegree := Table.degree_eq_ok_iff.2 ⟨ht, Table.degreeOf_of_entry hentry⟩
  have hle : a.table.degreeOf a.table.targetName ≤ r.target.degree - 1 + 1 := by
    rw [Table.degreeOf_of_entry hentry]
    omega
  have hprepared : ∀ e ∈ identities, e.degree ≤ r.target.degree →
      ∃ z, Linearization.ofIdentity e a = .ok z := fun e he hdegree => by
    obtain ⟨n, hn⟩ := hfits e he hdegree
    exact ⟨_, bind_eq_ok.2 ⟨n, hn, rfl⟩⟩
  have hfinished : (generateAll identities a.table.targetName a ⟨r.batchSize⟩
      .unlimited).1.status.IsFinished := by
    simp only [generateAll, hdegree]
    refine hfree.isFinished_generateFrom ht hle _ (fun e he => ?_) _ _
    obtain ⟨he, hfit⟩ := List.mem_filter.1 he
    exact ⟨h.isNumbered he, hprepared e he (of_decide_eq_true hfit)⟩
  refine ⟨a, _, ha, fun config => by rw [generateAll_unlimited _ _ _ config], hfinished,
    Response.reports_of_isFinished hfree.built hfinished (h.report_eq ha), fun e he hfit => ?_⟩
  obtain ⟨z, hz⟩ := hprepared e he hfit
  refine ⟨z, hz, fun s hs => ?_⟩
  have hend := (hfree.isFinished ht hle ⟨r.batchSize⟩ (h.isNumbered he) ⟨z, hz⟩).1
  obtain ⟨hidentity, -, hmatchings⟩ := Linearization.ofIdentity_eq_ok hz
  exact Linearization.isShareable_of_evaluate (hidentity ▸ hmatchings) fun m hm =>
    exists_evaluate_of_finished hend hz hs hm

end Request

/-! ## Options -/

namespace Options

/-- The response to what options ask for. -/
def respond (o : Options) (content : Except FileError String) : Except Refusal Response :=
  (Request.ofOptions o).map (Response.ofRequest · content)

theorem ofOptions_driven (o : Options) (threads batchSize : Option Nat) (sequential : Bool) :
    Request.ofOptions { o with threads, batchSize, sequential } = (Request.ofOptions o).map fun r =>
      { r with batchSize := batchSize.getD Config.standard.batchSize } := by
  unfold Request.ofOptions
  cases o.target <;> rfl

/-- Who works on the matchings, and how many at a time, does not show in the response. -/
theorem respond_driven (o : Options) (content : Except FileError String)
    (threads batchSize : Option Nat) (sequential : Bool) :
    { o with threads, batchSize, sequential }.respond content = o.respond content := by
  rw [respond, respond, ofOptions_driven]
  cases Request.ofOptions o with
  | error refusal => rfl
  | ok r => exact congrArg Except.ok (Response.ofRequest_batchSize r _ content)

/-- Texts of identities are arguments or lines, as one likes. -/
theorem output_respond_lines (o : Options) (content : Except FileError String) {text : String}
    {ls : List String} (h : HasLines text ls) (hne : ls.filter isIdentityLine ≠ []) :
    ({ o with identities := ls.filter isIdentityLine }.respond content).map Response.output =
      ({ o with identities := [] }.respond (.ok text)).map Response.output := by
  unfold respond Request.ofOptions
  cases o.target with
  | none => rfl
  | some target =>
    refine congrArg Except.ok (Response.output_congr rfl rfl fun identities => ?_)
    rw [Request.read?_arguments (if_neg (mt List.isEmpty_iff.1 hne)), Request.read?_lines,
      readIdentities_identityLines h]
    intro texts
    cases o.input <;> nofun

end Options

/-- A command line that asks for a run, with any content of the file or of standard input. If the
request is bad, nothing is written. If not, and if the permutations of all identities that fit the
target fit in memory, the run over the free algebra one degree below the target comes to its end and
is reported; whoever works on the matchings finds the same equations. The response does not depend on
threads and batches, nor its output on whether the identities are arguments or lines. -/
theorem Response.ofRequest_allOrNothing {args : List String} {o : Options}
    (ho : Options.none.readFrom none args = .ok o) {r : Request} (hr : Request.ofOptions o = .ok r)
    (hsize : r.target.generators ≤ byteCapacity) (content : Except FileError String) :
    (r.IsBad content → (ofRequest r content).WritesNothing) ∧
    (¬ r.IsBad content → ∃ identities field, r.Reads content identities field ∧
      ((∀ e ∈ identities, e.degree ≤ r.target.degree → ∃ n, matchingCount e.degrees = .ok n) →
        ∃ a outcome, PartialAlgebra.free field r.target (r.target.degree - 1) = .ok a ∧
          (∀ config,
            (generateAll identities a.table.targetName a config .unlimited).1 = outcome) ∧
          outcome.status.IsFinished ∧ (ofRequest r content).Reports r a outcome ∧
          ∀ e ∈ identities, e.degree ≤ r.target.degree →
            ∃ z, Linearization.ofIdentity e a = .ok z ∧
              ∀ s ∈ reached a.table a.basis a.table.targetName e.degrees, z.IsShareable s)) ∧
    (∀ threads batchSize sequential,
      { o with threads, batchSize, sequential }.respond content = .ok (ofRequest r content)) ∧
    ∀ text ls, HasLines text ls → ls.filter isIdentityLine ≠ [] →
      ({ o with identities := ls.filter isIdentityLine }.respond content).map output =
        ({ o with identities := [] }.respond (.ok text)).map output := by
  have hpos : 0 < r.target.generators := by
    unfold Request.ofOptions at hr
    split at hr
    · cases hr
    · rename_i target htarget
      cases hr
      exact Options.HasGenerators.readFrom (o := Options.none) (fun _ => nofun) ho target htarget
  refine ⟨writesNothing_of_isBad, fun hgood => ?_, fun threads batchSize sequential => ?_,
    fun text ls h hne => o.output_respond_lines content h hne⟩
  · obtain ⟨identities, field, hreads⟩ := Request.exists_reads hgood
    exact ⟨identities, field, hreads, hreads.exists_reports hpos hsize⟩
  · rw [Options.respond_driven, Options.respond, hr]
    rfl

/-- The square with a comment before it on standard input, which is reported as if it were an
argument, and bytes that are no text. -/
theorem Response.ofRequest_allOrNothing_square :
    ∃ (o : Options) (r : Request) (square : Identity) (a : PartialAlgebra) (outcome : Outcome),
      Options.none.readFrom none ["-t", "2", "--basis"] = .ok o ∧ Request.ofOptions o = .ok r ∧
      r.target.generators ≤ byteCapacity ∧ r.IsBad (.error .notText) ∧
      (ofRequest r (.error .notText)).WritesNothing ∧ ¬ r.IsBad (.ok "; square\n xx \n") ∧
      r.Reads (.ok "; square\n xx \n") [square] .standard ∧
      matchingCount square.degrees = .ok 2 ∧ square.degree ≤ r.target.degree ∧
      (generateAll [square] a.table.targetName a .standard .unlimited).1 = outcome ∧
      outcome.status.IsFinished ∧ (ofRequest r (.ok "; square\n xx \n")).Reports r a outcome ∧
      { o with threads := some 3, batchSize := some 1, sequential := true }.respond
        (.ok "; square\n xx \n") = .ok (ofRequest r (.ok "; square\n xx \n")) ∧
      HasLines "; square\n xx \n" ["; square", " xx "] ∧
      ["; square", " xx "].filter isIdentityLine = [" xx "] ∧
      ({ o with identities := [" xx "] }.respond (.error .notText)).map output =
        ({ o with identities := [] }.respond (.ok "; square\n xx \n")).map output := by
  let square : Identity := ⟨['x'], [2], [⟨1, .product (.leaf 0 0) (.leaf 0 1)⟩]⟩
  obtain ⟨o, r, ho, hr, htarget, hsource, hcharacteristic⟩ : ∃ o r,
      Options.none.readFrom none ["-t", "2", "--basis"] = .ok o ∧ Request.ofOptions o = .ok r ∧
      r.target = ⟨[2]⟩ ∧ r.source = .standardInput ∧ r.characteristic = 251 :=
    ⟨_, _, rfl, rfl, rfl, rfl, rfl⟩
  have hsize : r.target.generators ≤ byteCapacity := by
    rw [htarget]
    decide
  have hbad : r.IsBad (.error .notText) := .unreadable (by rw [hsource]; exact fun _ => nofun) rfl
  have htexts : r.texts (.ok "; square\n xx \n") = .ok ["xx"] := by
    unfold Request.texts
    rw [hsource]
    rfl
  have hparse : Identity.parse "xx" = .ok square := by cbv
  have hreads : r.Reads (.ok "; square\n xx \n") [square] .standard :=
    ⟨⟨_, htexts, .cons hparse .nil⟩, List.cons_ne_nil _ _, by rw [hcharacteristic]; rfl⟩
  have hlines : HasLines "; square\n xx \n" ["; square", " xx "] :=
    ⟨List.cons_ne_nil _ _, by decide, .inr (by decide)⟩
  have hfilter : ["; square", " xx "].filter isIdentityLine = [" xx "] := by decide
  obtain ⟨hnothing, -, -, hsources⟩ := ofRequest_allOrNothing ho hr hsize (.error .notText)
  obtain ⟨-, hgood, hdriven, -⟩ :=
    ofRequest_allOrNothing ho hr hsize (.ok "; square\n xx \n")
  obtain ⟨identities, field, ⟨⟨texts, htexts', hparse'⟩, -, hfield⟩, hreport⟩ :=
    hgood hreads.not_isBad
  cases hreads.field.symm.trans hfield
  cases htexts.symm.trans htexts'
  obtain ⟨e, rest, he, hrest, rfl⟩ := List.forall₂_cons_left_iff.1 hparse'
  cases hparse.symm.trans he
  cases hrest
  have hfits : matchingCount square.degrees = .ok 2 := rfl
  have hdegree : square.degree ≤ r.target.degree := by
    rw [htarget]
    decide
  obtain ⟨a, outcome, -, houtcome, hfinished, hreports, -⟩ := hreport fun e he _ => by
    rw [List.mem_singleton.1 he]
    exact ⟨2, hfits⟩
  have hwritten := hsources _ _ hlines (by rw [hfilter]; exact List.cons_ne_nil _ _)
  rw [hfilter] at hwritten
  exact ⟨o, r, square, a, outcome, ho, hr, hsize, hbad, hnothing hbad, hreads.not_isBad, hreads,
    hfits, hdegree, houtcome _, hfinished, hreports, hdriven _ _ _, hlines, hfilter, hwritten⟩

end Command

end Nonassoc
