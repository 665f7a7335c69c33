import Plexus.Extraction.Failure

/-!
# What the scripts read from stdin

Each script reads one JSON document from stdin. The three scripts under `specialized/plexus`
share one function, `unwrap_input(raw_json)` (the copies differ only in their docstrings), which
accepts three shapes of document: the `ScriptAgentInput` envelope, whose `input_data` is the
payload as a JSON string; the legacy wrapper `{"input": ..., "parameters": ...}`; and the bare
payload. The extraction script has its own `__main__` block, which takes `input_data` from a JSON
object, or else the whole of stdin as the text.

`json.loads` belongs to the standard library and is not written out: it is the argument `loads`,
which returns the value or the exception raised. Besides `JSONDecodeError` on text that is not
JSON, `json.loads` raises `ValueError` on an integer literal of more than 4300 digits and
`RecursionError` on nesting past the recursion limit; the scripts catch `JSONDecodeError` only
(`exceptDecode`). Every statement holds for every such function.

## What holds

`unwrap_input` raises on stdin that is not blank when `json.loads` raises on it, with any of its
exceptions, or when it is JSON but not an object (`AttributeError` on `.get`). Otherwise it raises
only when a payload text it parses, the `input_data` string or the legacy `input` string, makes
`json.loads` raise something other than `JSONDecodeError`: a payload that is not JSON only changes
which shape is recognized (`unwrapInput_eq_error_iff`).

## The extraction script's input

The `__main__` block of the extraction script tests `"input_data" in input_json` on whatever
JSON the input parses to, and indexes it when the test holds. It raises before `process` runs
exactly when `json.loads` raises on the stripped input something other than `JSONDecodeError`, or
the input parses to a number, a boolean or `null` (`in` on a scalar), to an array holding the
string `"input_data"` or a string containing `input_data` (indexing by a string), or to an object
whose `input_data` is not a string (`process` calls `.lower()` on it) (`mainText_eq_error_iff`).
So a document whose whole text is `2024`, `true` or `null` is not processed.

## The extraction script end to end

Nothing else catches an exception in the extraction script: `__main__` reads the text, runs
`process(text)` and prints the result. So the script ends with an exception on exactly two kinds
of stdin: those its `__main__` block raises on before `process` runs, and those whose text has at
least ten tokens and a quoted span of whitespace on some line, on which `process` raises
`ZeroDivisionError` (`extractionMain_eq_error_iff`). Every other stdin gets a result printed.
-/

namespace Plexus

/-- A JSON value as `json.loads` returns it: a number is exact, an object is the items of the dict
it builds, in insertion order. -/
inductive Json
  | null
  | bool (b : Bool)
  | num (q : ℚ)
  | str (s : Str)
  | arr (xs : List Json)
  | obj (items : List (Str × Json))

/-- The exceptions `json.loads` raises on a string: `JSONDecodeError` on text that is not JSON,
`ValueError` on an integer literal of more than 4300 digits, and `RecursionError` on arrays and
objects nested past the interpreter's recursion limit. -/
inductive LoadError
  | jsonDecodeError
  | valueError
  | recursionError
  deriving DecidableEq, Repr

/-- The exceptions the entry code can raise. -/
inductive EntryError
  | load (e : LoadError)
  | attributeError
  | typeError
  deriving DecidableEq, Repr

namespace Json

/-- Python's truth value: `None`, `False`, zero and empty containers are false. -/
def truthy : Json → Bool
  | null => false
  | bool b => b
  | num q => q ≠ 0
  | str s => !s.isEmpty
  | arr xs => !xs.isEmpty
  | obj items => !items.isEmpty

/-- `isinstance(v, dict)`. -/
def isObj : Json → Bool
  | obj _ => true
  | _ => false

/-- `isinstance(v, str)`. -/
def isStr : Json → Bool
  | str _ => true
  | _ => false

end Json

/-- `try: ... json.loads(s) ... except json.JSONDecodeError: ...`: the handler runs on
`JSONDecodeError` only, and every other exception of `json.loads` propagates. -/
def exceptDecode {α : Type} (r : Except LoadError Json) (body : Json → Except EntryError α)
    (handler : Except EntryError α) : Except EntryError α :=
  match r with
  | .ok v => body v
  | .error .jsonDecodeError => handler
  | .error e => .error (.load e)

section ExceptDecode

variable {α : Type} {body : Json → Except EntryError α} {handler : Except EntryError α}

@[simp] theorem exceptDecode_ok (v : Json) : exceptDecode (.ok v) body handler = body v := rfl

@[simp] theorem exceptDecode_jsonDecodeError :
    exceptDecode (.error .jsonDecodeError) body handler = handler := rfl

theorem exceptDecode_of_ne {le : LoadError} (hle : le ≠ .jsonDecodeError) :
    exceptDecode (.error le) body handler = .error (.load le) := by
  cases le
  · exact absurd rfl hle
  all_goals rfl

/-- The outcomes of a `try` around `json.loads` that end in an exception. -/
theorem exceptDecode_eq_error_iff {r : Except LoadError Json} {e : EntryError} :
    exceptDecode r body handler = .error e ↔ (∃ v, r = .ok v ∧ body v = .error e) ∨
      (r = .error .jsonDecodeError ∧ handler = .error e) ∨
        ∃ le, r = .error le ∧ le ≠ .jsonDecodeError ∧ e = .load le := by
  rcases r with (_ | _ | _) | v <;> simp [exceptDecode, eq_comm]

end ExceptDecode

/-! ## `unwrap_input` -/

section Unwrap

variable (loads : Str → Except LoadError Json)

/-- `json.loads(raw_json) if raw_json.strip() else {}`. -/
def loadEnvelope (raw : Str) : Except LoadError Json :=
  if strStrip raw = [] then .ok (.obj []) else loads raw

/-- `envelope.get("parameters", {}) or {}`. -/
def paramsOf (items : List (Str × Json)) : Json :=
  let p := dictGet items "parameters".toList (.obj [])
  if p.truthy then p else .obj []

/-- Formats 2 and 3, the legacy wrapper and the bare payload, tried when the `input_data` payload
is missing, blank or not JSON. -/
def unwrapLegacy (items : List (Str × Json)) : Except EntryError (Json × Json) :=
  if "input".toList ∈ dictKeys items ∧ "parameters".toList ∈ dictKeys items then
    match dictGet items "input".toList .null with
    | .str s =>
      if strStrip s = [] then .ok (.obj items, .obj [])
      else exceptDecode (loads s) (fun data ↦ .ok (data, paramsOf items))
        (.ok (.obj items, paramsOf items))
    | .obj inner => .ok (.obj inner, paramsOf items)
    | _ => .ok (.obj items, .obj [])
  else .ok (.obj items, .obj [])

/-- `unwrap_input` on an envelope that is a dict: format 1, the `ScriptAgentInput` envelope, and
the others after it. -/
def unwrapEnvelope (items : List (Str × Json)) : Except EntryError (Json × Json) :=
  match dictGet items "input_data".toList (.str []) with
  | .str s =>
    if strStrip s = [] then unwrapLegacy loads items
    else exceptDecode (loads s) (fun data ↦ .ok (data, paramsOf items)) (unwrapLegacy loads items)
  | _ => unwrapLegacy loads items

/-- `unwrap_input(raw_json)`: the payload and the parameters. -/
def unwrapInput (raw : Str) : Except EntryError (Json × Json) :=
  match loadEnvelope loads raw with
  | .error e => .error (.load e)
  | .ok (.obj items) => unwrapEnvelope loads items
  | .ok _ => .error .attributeError

/-- The `input_data` text of an envelope that format 1 parses: a string that is not blank. -/
def InputDataText (items : List (Str × Json)) (s : Str) : Prop :=
  dictGet items "input_data".toList (.str []) = .str s ∧ strStrip s ≠ []

/-- The `input` text of a legacy wrapper that format 2 parses: a string that is not blank, in a
document that also has `parameters`. -/
def LegacyText (items : List (Str × Json)) (s : Str) : Prop :=
  "parameters".toList ∈ dictKeys items ∧ dictGet items "input".toList .null = .str s ∧
    strStrip s ≠ []

/-- Formats 2 and 3 raise only when the legacy `input` text makes `json.loads` raise something
other than `JSONDecodeError`. -/
theorem unwrapLegacy_eq_error_iff (items : List (Str × Json)) (e : EntryError) :
    unwrapLegacy loads items = .error e ↔ ∃ le, le ≠ .jsonDecodeError ∧ e = .load le ∧
      ∃ s, LegacyText items s ∧ loads s = .error le := by
  unfold unwrapLegacy LegacyText
  by_cases hk : "input".toList ∈ dictKeys items ∧ "parameters".toList ∈ dictKeys items
  · rw [if_pos hk]
    cases hi : dictGet items "input".toList .null with
    | str s =>
      dsimp only
      by_cases hs : strStrip s = []
      · simp only [hs, if_true, reduceCtorEq, false_iff]
        rintro ⟨le, -, -, s', ⟨-, hs', hne⟩, -⟩
        exact hne (Json.str.inj hs' ▸ hs)
      · rw [if_neg hs, exceptDecode_eq_error_iff]
        simp only [reduceCtorEq, and_false, exists_false, false_or, Json.str.injEq, hk.2, ne_eq,
          hs, true_and, not_false_eq_true, and_assoc, exists_eq_left']
        exact exists_congr fun _ ↦ and_rotate
    | _ => simp
  · rw [if_neg hk]
    simp only [reduceCtorEq, false_iff, not_exists, not_and]
    rintro le - - s ⟨hp, hi, -⟩ -
    exact hk ⟨mem_dictKeys_of_dictGet_ne (by rw [hi]; nofun), hp⟩

/-- An envelope that is a dict raises only when a payload text that `unwrap_input` parses makes
`json.loads` raise something other than `JSONDecodeError`: the `input_data` text, or the legacy
`input` text when the `input_data` text is missing or not JSON. -/
theorem unwrapEnvelope_eq_error_iff (items : List (Str × Json)) (e : EntryError) :
    unwrapEnvelope loads items = .error e ↔ ∃ le, le ≠ .jsonDecodeError ∧ e = .load le ∧
      ((∃ s, InputDataText items s ∧ loads s = .error le) ∨
        (∀ s, InputDataText items s → loads s = .error .jsonDecodeError) ∧
          ∃ s, LegacyText items s ∧ loads s = .error le) := by
  unfold unwrapEnvelope InputDataText
  cases hd : dictGet items "input_data".toList (.str []) with
  | str s =>
    dsimp only
    by_cases hs : strStrip s = []
    · rw [if_pos hs, unwrapLegacy_eq_error_iff]
      simp [hs, and_assoc]
    · rw [if_neg hs, exceptDecode_eq_error_iff]
      rcases hl : loads s with (_ | _ | _) | data <;>
        simp [hs, hl, and_assoc, unwrapLegacy_eq_error_iff]
      exact exists_congr fun le ↦ and_congr_right fun hle ↦ by simp [Ne.symm hle]
  | _ => simp [unwrapLegacy_eq_error_iff]

/-- `unwrap_input` raises on the outer document that does not load or is not a dict, and otherwise
as its envelope does. -/
theorem unwrapInput_eq_error_iff_envelope (raw : Str) (e : EntryError) :
    unwrapInput loads raw = .error e ↔
      (∃ le, loadEnvelope loads raw = .error le ∧ e = .load le) ∨
      (∃ v, loadEnvelope loads raw = .ok v ∧ v.isObj = false ∧ e = .attributeError) ∨
        ∃ items, loadEnvelope loads raw = .ok (.obj items) ∧
          unwrapEnvelope loads items = .error e := by
  unfold unwrapInput
  rcases loadEnvelope loads raw with le | ((_ | _ | _ | _ | _ | items)) <;> dsimp only <;>
    simp only [Except.error.injEq, Except.ok.injEq, Json.obj.injEq, reduceCtorEq, Json.isObj,
      Bool.true_eq_false, exists_eq_left', exists_false, false_and, true_and, false_or, or_false,
      iff_self] <;>
    exact eq_comm

/-- **When `unwrap_input` raises.** On stdin that is not blank, it raises what `json.loads` raises
on stdin, `AttributeError` when stdin is JSON but not an object, or an exception other than
`JSONDecodeError` that `json.loads` raises on a payload text it parses: the `input_data` text, or
the legacy `input` text when the `input_data` text is missing or not JSON. A payload that is not
JSON never makes it raise. -/
theorem unwrapInput_eq_error_iff (raw : Str) (e : EntryError) :
    unwrapInput loads raw = .error e ↔ strStrip raw ≠ [] ∧
      ((∃ le, loads raw = .error le ∧ e = .load le) ∨
        (∃ v, loads raw = .ok v ∧ v.isObj = false ∧ e = .attributeError) ∨
        ∃ items, loads raw = .ok (.obj items) ∧
          ∃ le, le ≠ .jsonDecodeError ∧ e = .load le ∧
            ((∃ s, InputDataText items s ∧ loads s = .error le) ∨
              (∀ s, InputDataText items s → loads s = .error .jsonDecodeError) ∧
                ∃ s, LegacyText items s ∧ loads s = .error le)) := by
  by_cases hblank : strStrip raw = []
  · have h : unwrapInput loads raw = .ok (.obj [], .obj []) := by
      rw [unwrapInput, loadEnvelope, if_pos hblank]
      rfl
    simp only [h, hblank, reduceCtorEq, ne_eq, not_true_eq_false, false_and]
  · rw [unwrapInput_eq_error_iff_envelope, loadEnvelope]
    simp only [hblank, if_false, ne_eq, not_false_eq_true, true_and, unwrapEnvelope_eq_error_iff]

/-- An envelope whose `input_data` text holds an integer literal too long to convert ends in the
`ValueError` of `json.loads`, which `unwrap_input` does not catch. -/
example :
    unwrapInput (fun s ↦
        if s = "E".toList then .ok (.obj [("input_data".toList, .str "P".toList)])
        else .error .valueError)
      "E".toList = .error (.load .valueError) :=
  rfl

end Unwrap

/-! ## The extraction script's input -/

/-- `"input_data" in input_json`, on the kinds of value it does not raise on. -/
def hasInputData : Json → Option Bool
  | .obj items => some (decide ("input_data".toList ∈ dictKeys items))
  | .arr xs => some (xs.any fun x ↦ match x with
      | .str s => decide (s = "input_data".toList)
      | _ => false)
  | .str s => some (decide ("input_data".toList <:+: s))
  | _ => none

/-- The rest of the `try` in the `__main__` block, once `json.loads(raw)` has returned `v`: the
text to process, or the exception raised. -/
def inputText (raw : Str) (v : Json) : Except EntryError Str :=
  match hasInputData v with
  | none => .error .typeError
  | some false => .ok raw
  | some true =>
    match v with
    | .obj items =>
      match dictGet items "input_data".toList .null with
      | .str text => .ok text
      | _ => .error .attributeError
    | _ => .error .typeError

/-- The `__main__` block of the extraction script up to `process(text)`: the text it processes,
or the exception raised first. -/
def mainText (loads : Str → Except LoadError Json) (stdin : Str) : Except EntryError Str :=
  let raw := strStrip stdin
  exceptDecode (loads raw) (inputText raw) (.ok raw)

/-- Where the `__main__` block raises before `process`. -/
def EntryCrash : Json → Prop
  | .obj items => "input_data".toList ∈ dictKeys items ∧
      (dictGet items "input_data".toList .null).isStr = false
  | .arr xs => Json.str "input_data".toList ∈ xs
  | .str s => "input_data".toList <:+: s
  | _ => True

theorem any_inputData_iff (xs : List Json) :
    (xs.any fun x ↦ match x with
      | .str s => decide (s = "input_data".toList)
      | _ => false) = true ↔ Json.str "input_data".toList ∈ xs := by
  simp only [List.any_eq_true]
  constructor
  · rintro ⟨x, hx, hs⟩
    rcases x with _ | _ | _ | s | _ | _ <;> simp only [decide_eq_true_eq, reduceCtorEq] at hs
    rwa [← hs]
  · intro h
    exact ⟨_, h, by simp⟩

/-- On a document that loads, the `__main__` block raises exactly when the value crashes it. -/
theorem exists_error_inputText_iff (raw : Str) (v : Json) :
    (∃ e, inputText raw v = .error e) ↔ EntryCrash v := by
  unfold inputText
  rcases v with _ | _ | _ | s | xs | items
  case str =>
    by_cases h : "input_data".toList <:+: s
    · simp only [hasInputData, decide_eq_true h, EntryCrash, h, iff_true]
      exact ⟨_, rfl⟩
    · simp only [hasInputData, decide_eq_false h, EntryCrash, h, iff_false]
      nofun
  case arr =>
    by_cases h : Json.str "input_data".toList ∈ xs
    · simp only [hasInputData, (any_inputData_iff xs).mpr h, EntryCrash, h, iff_true]
      exact ⟨_, rfl⟩
    · simp only [hasInputData, Bool.eq_false_iff.mpr (mt (any_inputData_iff xs).mp h),
        EntryCrash, h, iff_false]
      nofun
  case obj =>
    by_cases h : "input_data".toList ∈ dictKeys items
    · simp only [hasInputData, h, decide_True, EntryCrash, true_and]
      split <;> simp_all [Json.isStr]
    · simp only [hasInputData, decide_eq_false h, EntryCrash, h, false_and, iff_false]
      nofun
  all_goals simp [hasInputData, EntryCrash]

section MainText

variable {loads : Str → Except LoadError Json} {stdin : Str}

/-- Stdin that is not JSON is processed as it is, stripped. -/
theorem mainText_of_jsonDecodeError (hv : loads (strStrip stdin) = .error .jsonDecodeError) :
    mainText loads stdin = .ok (strStrip stdin) := by
  simp only [mainText, hv, exceptDecode_jsonDecodeError]

/-- Any other exception of `json.loads` on stdin ends the block. -/
theorem mainText_of_loads_error {le : LoadError} (hv : loads (strStrip stdin) = .error le)
    (hle : le ≠ .jsonDecodeError) : mainText loads stdin = .error (.load le) := by
  simp only [mainText, hv, exceptDecode_of_ne hle]

theorem mainText_of_loads_ok {v : Json} (hv : loads (strStrip stdin) = .ok v) :
    mainText loads stdin = inputText (strStrip stdin) v := by
  simp only [mainText, hv, exceptDecode_ok]

end MainText

/-- **Which inputs the extraction script rejects.** Before `process` runs, the `__main__` block
raises exactly when `json.loads` raises on the stripped input something other than
`JSONDecodeError`, or the input parses to a number, a boolean or `null`, to an array holding the
string `"input_data"`, to a string containing `input_data`, or to an object whose `input_data` is
not a string. -/
theorem mainText_eq_error_iff (loads : Str → Except LoadError Json) (stdin : Str) :
    (∃ e, mainText loads stdin = .error e) ↔
      (∃ le, loads (strStrip stdin) = .error le ∧ le ≠ .jsonDecodeError) ∨
        ∃ v, loads (strStrip stdin) = .ok v ∧ EntryCrash v := by
  rcases hv : loads (strStrip stdin) with le | v
  · by_cases hle : le = .jsonDecodeError
    · subst hle
      simp [mainText_of_jsonDecodeError hv]
    · simp [mainText_of_loads_error hv hle, hle]
  · rw [mainText_of_loads_ok hv, exists_error_inputText_iff]
    simp

/-- A document whose whole text is `2024` is not processed. -/
example :
    mainText (fun s ↦ if s = "2024".toList then .ok (.num 2024) else .error .jsonDecodeError)
      "2024\n".toList = .error .typeError := by
  decide

/-! ## The extraction script end to end -/

/-- The exception that ends the extraction script: raised by its `__main__` block before
`process` runs, or by `process`. -/
inductive ScriptError
  | entry (e : EntryError)
  | process (e : PyError)

/-- The `__main__` block of the extraction script: the text it reads, then `process(text)`, whose
result it prints with `json.dumps`. -/
def extractionMain (db : UnicodeDb) (ord : SetOrder) (loads : Str → Except LoadError Json)
    (stdin : Str) : Except ScriptError Output := do
  let text ← (mainText loads stdin).mapError .entry
  (process db ord text).mapError .process

section ExtractionMain

variable {db : UnicodeDb} {ord : SetOrder} {loads : Str → Except LoadError Json} {stdin : Str}

theorem extractionMain_of_mainText_error {e : EntryError} (hm : mainText loads stdin = .error e) :
    extractionMain db ord loads stdin = .error (.entry e) := by
  simp only [extractionMain, hm, Except.mapError, error_bind]

/-- Once the `__main__` block has read its text, the script raises exactly when `process` does. -/
theorem exists_error_extractionMain_iff_of_mainText (hdb : TableFacts db) {text : Str}
    (hm : mainText loads stdin = .ok text) :
    (∃ e, extractionMain db ord loads stdin = .error e) ↔
      10 ≤ (tokenize db text).length ∧ BlankQuote text := by
  rw [← exists_wordless_iff_blankQuote hdb ord]
  simp only [extractionMain, hm, Except.mapError, ok_bind]
  rcases hp : process db ord text with e | out
  · obtain ⟨-, h⟩ := (process_eq_error_iff db ord text e).mp hp
    exact iff_of_true ⟨.process e, rfl⟩ h
  · refine iff_of_false (by rintro ⟨e, he⟩; cases he) fun h ↦ ?_
    have := (process_eq_error_iff db ord text .zeroDivisionError).mpr ⟨rfl, h⟩
    rw [hp] at this
    cases this

end ExtractionMain

/-- **When the extraction script raises.** On every stdin, the script ends with an exception
exactly when `json.loads` raises on the stripped input something other than `JSONDecodeError`,
when the value it returns crashes the `__main__` block before `process`, or when the text read has
at least ten tokens and a quoted span of whitespace on some line. -/
theorem extractionMain_eq_error_iff {db : UnicodeDb} (hdb : TableFacts db) (ord : SetOrder)
    (loads : Str → Except LoadError Json) (stdin : Str) :
    (∃ e, extractionMain db ord loads stdin = .error e) ↔
      (∃ le, loads (strStrip stdin) = .error le ∧ le ≠ .jsonDecodeError) ∨
        (∃ v, loads (strStrip stdin) = .ok v ∧ EntryCrash v) ∨
          ∃ text, mainText loads stdin = .ok text ∧ 10 ≤ (tokenize db text).length ∧
            BlankQuote text := by
  rcases hv : loads (strStrip stdin) with le | v
  · by_cases hle : le = .jsonDecodeError
    · subst hle
      have hm := mainText_of_jsonDecodeError hv
      simp [exists_error_extractionMain_iff_of_mainText hdb hm, hm]
    · exact iff_of_true ⟨_, extractionMain_of_mainText_error (mainText_of_loads_error hv hle)⟩
        (.inl ⟨le, rfl, hle⟩)
  · rcases ht : inputText (strStrip stdin) v with e | text
    · have hc := (exists_error_inputText_iff _ v).mp ⟨e, ht⟩
      have hm := (mainText_of_loads_ok hv).trans ht
      exact iff_of_true ⟨_, extractionMain_of_mainText_error hm⟩ (.inr (.inl ⟨v, rfl, hc⟩))
    · have hm := (mainText_of_loads_ok hv).trans ht
      have hc : ¬EntryCrash v := fun hc ↦ by
        obtain ⟨e, he⟩ := (exists_error_inputText_iff _ v).mpr hc
        rw [ht] at he
        cases he
      simp [exists_error_extractionMain_iff_of_mainText hdb hm, hm, hc]

/-- Plain text of ten tokens with a blank quoted span, not JSON, ends the script with an
exception. -/
theorem extractionMain_blank_quote_raises :
    ∃ e, extractionMain .ascii .firstSeen (fun _ ↦ .error .jsonDecodeError)
      "the the the the the the the the the the\nsay \"    \" twice\n".toList = .error e :=
  (extractionMain_eq_error_iff tableFacts_ascii _ _ _).mpr
    (.inr (.inr ⟨_, rfl, by decide, by decide⟩))

end Plexus
