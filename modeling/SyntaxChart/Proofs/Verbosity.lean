import SyntaxChart.Proofs.Classifying
import SyntaxChart.Proofs.CommandLine

/-!
# The log changes nothing else

A run ends with a code and an output, apart from what it writes to the standard error. These depend
on the file and the direction that are asked for, and on what can be read; they do not depend on the
calls for a log. With them a command line is accepted or refused as without, wherever they stand and
however they are written (`Command.run_ignores_logs`).
-/

namespace SyntaxChart

/-- How a run ends, apart from its messages. -/
def Outcome.result (o : Outcome) : Nat × String :=
  (o.code, o.output)

theorem decodeInput_eq_ok_iff {bytes : ByteArray} {text : String} :
    decodeInput bytes = .ok text ↔ bytes = text.toUTF8 := by
  rw [decodeInput, String.fromUTF8?]
  split_ifs with hvalid
  · constructor
    · rintro ⟨⟩
      rfl
    · rintro rfl
      rfl
  · simp only [false_iff]
    rintro rfl
    exact hvalid text.isValidUTF8

namespace Request

variable {request request' : Request} {inputs : Inputs} {text chart : String}

/-- The input that is asked for can be read, and encodes a text. -/
def Reads (request : Request) (inputs : Inputs) (text : String) : Prop :=
  request.file.elim inputs.standard inputs.file = .ok text.toUTF8

theorem input_eq_ok_iff : request.input inputs = .ok text ↔ request.Reads inputs text := by
  have hinput : request.input inputs
      = (request.file.elim inputs.standard inputs.file).bind decodeInput := by
    rw [input]
    cases request.file <;> rfl
  rw [hinput, Reads]
  rcases request.file.elim inputs.standard inputs.file with e | bytes
  · simp [Except.bind]
  · simp [Except.bind, decodeInput_eq_ok_iff]

/-- A run with a chart writes it and ends well. -/
theorem result_of_reads (h : request.Reads inputs text)
    (hchart : Source.chartText text request.direction = .ok chart) :
    (request.outcome inputs).result = (0, chart ++ "\n") := by
  simp only [outcome, input_eq_ok_iff.2 h, hchart, Outcome.result]

/-- A run without a chart writes nothing. -/
theorem result_of_not_reads
    (h : ¬∃ text chart, request.Reads inputs text
      ∧ Source.chartText text request.direction = .ok chart) :
    (request.outcome inputs).result = (1, "") := by
  rw [outcome]
  rcases hi : request.input inputs with e | text
  · rfl
  · rcases hc : Source.chartText text request.direction with e | chart
    · simp only [hc, Outcome.result]
    · exact absurd ⟨text, chart, input_eq_ok_iff.1 hi, hc⟩ h

/-- Requests that differ in their calls for a log only end in the same way. -/
theorem result_congr (hfile : request.file = request'.file)
    (hdirection : request.direction = request'.direction) (inputs : Inputs) :
    (request.outcome inputs).result = (request'.outcome inputs).result := by
  by_cases h : ∃ text chart, request.Reads inputs text
      ∧ Source.chartText text request.direction = .ok chart
  · obtain ⟨text, chart, hreads, hchart⟩ := h
    rw [result_of_reads hreads hchart]
    rw [Reads, hfile] at hreads
    rw [hdirection] at hchart
    exact (result_of_reads hreads hchart).symm
  · rw [result_of_not_reads h, result_of_not_reads]
    simpa only [Reads, hfile, hdirection] using h

end Request

namespace Command

theorem run_of_request? {args : List String} {request : Request} (h : request? args = some request)
    (inputs : Inputs) : run args inputs = request.outcome inputs := by
  simp only [run, h]

/-- What is left of a command line without its calls for a log. -/
def withoutLogs (items : List Item) : List Item :=
  items.filter (· ≠ .log)

theorem filterMap_withoutLogs {α : Type} {f : Item → Option α} (hf : f .log = none)
    (items : List Item) : (withoutLogs items).filterMap f = items.filterMap f := by
  rw [withoutLogs, List.filterMap_filter]
  refine List.filterMap_congr fun item _ => ?_
  rcases eq_or_ne item .log with rfl | h
  · simp [hf]
  · simp [h]

/-- Calls for a log can be added and left out; only their number is another. -/
theorem Asks.of_withoutLogs {items items' : List Item} {request : Request}
    (h : Asks items request) (heq : withoutLogs items = withoutLogs items') :
    Asks items' { request with verbosity := items'.count .log } := by
  have hmap {α : Type} {f : Item → Option α} (hf : f .log = none) :
      items'.filterMap f = items.filterMap f := by
    rw [← filterMap_withoutLogs hf, ← heq, filterMap_withoutLogs hf]
  exact ⟨(hmap rfl).trans h.file, h.file_ne, by rw [hmap rfl]; exact h.direction, rfl⟩

theorem exists_request?_of_withoutLogs {args args' : List String} {items items' : List Item}
    (h : Says args items) (h' : Says args' items') (heq : withoutLogs items = withoutLogs items')
    {request : Request} (hr : request? args = some request) :
    ∃ request', request? args' = some request' ∧ request.file = request'.file
      ∧ request.direction = request'.direction :=
  ⟨_, h'.request?_eq_some_iff.2 ((h.request?_eq_some_iff.1 hr).of_withoutLogs heq), rfl, rfl⟩

/-- Calls for a log neither make a command line accepted or refused nor change how the run ends. -/
theorem result_congr_of_withoutLogs {args args' : List String} {items items' : List Item}
    (h : Says args items) (h' : Says args' items') (heq : withoutLogs items = withoutLogs items') :
    (request? args).isSome = (request? args').isSome
      ∧ ∀ inputs, (run args inputs).result = (run args' inputs).result := by
  rcases hr : request? args with _ | request
  · rcases hr' : request? args' with _ | request'
    · exact ⟨rfl, fun inputs => by simp only [run, hr, hr']⟩
    · obtain ⟨request, hr₂, -⟩ := exists_request?_of_withoutLogs h' h heq.symm hr'
      cases hr.symm.trans hr₂
  · obtain ⟨request', hr', hfile, hdirection⟩ := exists_request?_of_withoutLogs h h' heq hr
    refine ⟨by rw [hr']; rfl, fun inputs => ?_⟩
    rw [run_of_request? hr, run_of_request? hr']
    exact Request.result_congr hfile hdirection inputs

/-- The requests are what command lines say, in any of the ways it can be written. What is said
apart from calls for a log decides whether a command line is refused and how the run ends; so do the
file and the direction of a request. A run that has a request ends with code 0 if the input can be
read, encodes a text and that has a chart, and the output is the chart and a line feed; otherwise it
ends with code 1 and without output. -/
theorem run_ignores_logs :
    (∀ args request, request? args = some request ↔
        ∃ items, Says args items ∧ Asks items request)
      ∧ (∀ args args' items items', Says args items → Says args' items' →
        withoutLogs items = withoutLogs items' →
          (request? args).isSome = (request? args').isSome
            ∧ ∀ inputs, (run args inputs).result = (run args' inputs).result)
      ∧ (∀ args args' request request', request? args = some request →
        request? args' = some request' → request.file = request'.file →
          request.direction = request'.direction →
            ∀ inputs, (run args inputs).result = (run args' inputs).result)
      ∧ ∀ args request inputs, request? args = some request →
        ((run args inputs).code = 0 ↔ ∃ text chart, request.Reads inputs text
          ∧ Source.chartText text request.direction = .ok chart)
        ∧ (∀ text chart, request.Reads inputs text →
          Source.chartText text request.direction = .ok chart →
            (run args inputs).result = (0, chart ++ "\n"))
        ∧ ((run args inputs).code ≠ 0 → (run args inputs).result = (1, "")) := by
  refine ⟨fun args request => request?_eq_some_iff,
    fun args args' items items' => result_congr_of_withoutLogs,
    fun args args' request request' h h' hfile hdirection inputs => ?_,
    fun args request inputs h => ?_⟩
  · rw [run_of_request? h, run_of_request? h']
    exact Request.result_congr hfile hdirection inputs
  rw [run_of_request? h]
  by_cases hchart : ∃ text chart, request.Reads inputs text
    ∧ Source.chartText text request.direction = .ok chart
  · have hcode : (request.outcome inputs).code = 0 := by
      obtain ⟨text, chart, hreads, hchart⟩ := hchart
      exact congrArg Prod.fst (Request.result_of_reads hreads hchart)
    exact ⟨iff_of_true hcode hchart, fun _ _ => Request.result_of_reads, absurd hcode⟩
  · have hresult := Request.result_of_not_reads hchart
    have hcode : (request.outcome inputs).code = 1 := congrArg Prod.fst hresult
    exact ⟨iff_of_false (by simp [hcode]) hchart, fun _ _ => Request.result_of_reads,
      fun _ => hresult⟩

/-- Two spellings of one request of a file that holds a string, with two calls for a log and with
one, and the same request of a file that is missing. -/
theorem run_ignores_logs_spelling :
    let args := ["-vvdLR", "a"]
    let args' := ["--direction", "LR", "--verbose", "a"]
    let holding : Inputs := ⟨fun _ => .ok "\"s\"".toUTF8, .error .missing⟩
    let missing : Inputs := ⟨fun _ => .error .missing, .error .missing⟩
    Says args [.log, .log, .direction .leftRight, .file "a"]
      ∧ Says args' [.direction .leftRight, .log, .file "a"]
      ∧ request? args = some ⟨some "a", .leftRight, 2⟩
      ∧ request? args' = some ⟨some "a", .leftRight, 1⟩
      ∧ (run args holding).result = (run args' holding).result
      ∧ (run args holding).result = (0, "graph LR\nStrExp_1StrExp(s)\n")
      ∧ (run args missing).result = (run args' missing).result
      ∧ (run args missing).result = (1, "") := by
  intro args args' holding missing
  have hfile : Phrase ["a"] [.file "a"] := .file (.inr (by decide))
  have hargs : Says args [.log, .log, .direction .leftRight, .file "a"] :=
    .phrase (.short 2 .leftRight) (.phrase hfile .nil)
  have hargs' : Says args' [.direction .leftRight, .log, .file "a"] :=
    .phrase (.longNext .leftRight) (.phrase .verbose (.phrase hfile .nil))
  have hr : request? args = some ⟨some "a", .leftRight, 2⟩ := by rfl
  have hr' : request? args' = some ⟨some "a", .leftRight, 1⟩ := by rfl
  have hread : SExpr.read "\"s\"" = .ok (.string "s") :=
    SExpr.Grammar.Document.reads ⟨_, _, .none _,
      .string (.plain (by decide) (by decide) (.close [])), .none _⟩
  have hchart : Source.chartText "\"s\"" .leftRight
      = .ok "graph LR\nStrExp_1StrExp(s)" := by
    have hscript : Script.ofText "\"s\"" = .ok (.form (.expression (.string "s"))) :=
      Script.ofText_eq_ok_iff.2 ⟨_, hread, .form (Form.parse_of_derives_expr (.string "s"))⟩
    rw [Source.chartText, hscript]
    rfl
  obtain ⟨-, hlogs, hsame, hends⟩ := run_ignores_logs
  exact ⟨hargs, hargs', hr, hr', (hlogs args args' _ _ hargs hargs' rfl).2 holding,
    (hends args _ holding hr).2.1 _ _ rfl hchart, hsame args args' _ _ hr hr' rfl rfl missing,
    (hends args _ missing hr).2.2 (by decide)⟩

end Command

end SyntaxChart
