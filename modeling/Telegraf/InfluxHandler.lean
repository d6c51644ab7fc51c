import Telegraf.InfluxCalls
import Telegraf.Replacer

/-!
# The handler of the line protocol parser

`MetricHandler` (`plugins/parsers/influx/handler.go`) makes a metric of the tokens that the machine
finds. Names, keys and values are unescaped by replacers (`escape.go`), and numbers are parsed with
`strconv`, whose errors end the line. What `strconv` does with floats is a parameter.

`parse` is the parser over a whole input, which returns at the first error.
-/

namespace Telegraf.Influx

open Replacer Scanner

variable {𝔽 : Type}

/-! ## Unescaping -/

namespace Parser

/-- `escapes`. -/
def escapes : GoString := str " ,="

/-- `nameEscapes`. -/
def nameEscapes : GoString := str " ,"

/-- `stringFieldEscapes`. -/
def stringFieldEscapes : GoString := str "\\\""

end Parser

/-- `unescaper`. -/
def unescaper : List (GoString × GoString) :=
  [(str "\\,", str ","), (str "\\\"", str "\""), (str "\\ ", str " "), (str "\\=", str "=")]

/-- `nameUnescaper`. -/
def nameUnescaper : List (GoString × GoString) :=
  [(str "\\,", str ","), (str "\\ ", str " ")]

/-- `stringFieldUnescaper`. -/
def stringFieldUnescaper : List (GoString × GoString) :=
  [(str "\\\"", str "\""), (str "\\\\", str "\\")]

def unescape (b : GoString) : GoString :=
  if containsAny b Parser.escapes then replace unescaper b else b

def nameUnescape (b : GoString) : GoString :=
  if containsAny b Parser.nameEscapes then replace nameUnescaper b else b

def stringFieldUnescape (b : GoString) : GoString :=
  if containsAny b Parser.stringFieldEscapes then replace stringFieldUnescaper b else b

/-! ## Numbers -/

/-- `strconv.ErrSyntax` and `strconv.ErrRange`. -/
inductive NumErr where
  | errSyntax
  | errRange
deriving Repr, DecidableEq

/-- The loop of `strconv.ParseUint` in base 10 with 64 bits. -/
def parseDigits : ℕ → GoString → Except NumErr ℕ
  | n, [] => .ok n
  | n, b :: s =>
    if b < 48 ∨ 57 < b then .error .errSyntax
    else if 2 ^ 64 ≤ n * 10 + (b.toNat - 48) then .error .errRange
    else parseDigits (n * 10 + (b.toNat - 48)) s

/-- `strconv.ParseUint` in base 10 with 64 bits. -/
def parseUint (s : GoString) : Except NumErr ℕ :=
  if s = [] then .error .errSyntax else parseDigits 0 s

/-- `strconv.ParseInt` behind the sign. -/
def parseMagnitude (neg : Bool) (s : GoString) : Except NumErr ℤ :=
  match parseUint s with
  | .error e => .error e
  | .ok n =>
    if neg then if 2 ^ 63 < n then .error .errRange else .ok (-n)
    else if 2 ^ 63 ≤ n then .error .errRange else .ok n

/-- `strconv.ParseInt` in base 10 with 64 bits. -/
def parseInt : GoString → Except NumErr ℤ
  | 43 :: s => parseMagnitude false s
  | 45 :: s => parseMagnitude true s
  | s => parseMagnitude false s

/-- `strconv.ParseBool`. -/
def parseBool (s : GoString) : Option Bool :=
  if s ∈ [str "1", str "t", str "T", str "true", str "TRUE", str "True"] then some true
  else if s ∈ [str "0", str "f", str "F", str "false", str "FALSE", str "False"] then some false
  else none

/-- `bytes.TrimSuffix` with one byte. -/
def trimSuffix (s : GoString) (b : UInt8) : GoString :=
  if s.getLast? = some b then s.dropLast else s

/-! ## The handler -/

/-- The errors of `MetricHandler`. -/
inductive HandlerErr where
  | num (e : NumErr)
  | unparseableBool
deriving Repr, DecidableEq

/-- The zero `time.Time`, the first of January of the year 1, in nanoseconds. -/
def zeroTime : ℤ := -62135596800 * 10 ^ 9

/-- `MetricHandler`. `timeCalls` is the number of calls of `timeFunc`, and there is no metric before
the first measurement. -/
structure MetricHandler (𝔽 : Type) where
  timePrecision : ℤ
  metric : Option (Metric 𝔽)
  timeCalls : ℕ
deriving Repr, DecidableEq

/-- What the handler is given : `timeFunc`, call by call, and `strconv.ParseFloat`. -/
structure HandlerEnv (𝔽 : Type) where
  timeFunc : ℕ → ℤ
  parseFloat : GoString → Except NumErr 𝔽

/-- `Truncate` of a time. -/
def truncate (t d : ℤ) : ℤ :=
  if d ≤ 0 then t else t - (t - zeroTime) % d

namespace MetricHandler

/-- `NewMetricHandler`. -/
def new : MetricHandler 𝔽 :=
  ⟨1, none, 0⟩

variable (env : HandlerEnv 𝔽)

/-- A change of the handler's metric, which exists : a name is the first token of a line. -/
def update (h : MetricHandler 𝔽) (f : Metric 𝔽 → Metric 𝔽) : MetricHandler 𝔽 :=
  { h with metric := h.metric.map f }

def setMeasurement (name : GoString) (h : MetricHandler 𝔽) : MetricHandler 𝔽 × Option HandlerErr :=
  ({ h with metric := some (Metric.empty (nameUnescape name) zeroTime .untyped) }, none)

def addTag (key value : GoString) (h : MetricHandler 𝔽) : MetricHandler 𝔽 × Option HandlerErr :=
  (h.update fun m => m.addTag (unescape key) (unescape value), none)

/-- A field of a type that is parsed. -/
def addParsed (key : GoString) (value : Except HandlerErr (FieldValue 𝔽)) (h : MetricHandler 𝔽) :
    MetricHandler 𝔽 × Option HandlerErr :=
  match value with
  | .error e => (h, some e)
  | .ok v => (h.update fun m => m.addField (unescape key) v, none)

section

variable (key value : GoString) (h : MetricHandler 𝔽)

include h

def addInt : MetricHandler 𝔽 × Option HandlerErr :=
  h.addParsed key (((parseInt (trimSuffix value 105)).map fun v => .int (.ofInt v)).mapError .num)

def addUint : MetricHandler 𝔽 × Option HandlerErr :=
  h.addParsed key (((parseUint (trimSuffix value 117)).map fun v => .uint (.ofNat v)).mapError .num)

def addFloat : MetricHandler 𝔽 × Option HandlerErr :=
  h.addParsed key (((env.parseFloat value).map .float).mapError .num)

def addString : MetricHandler 𝔽 × Option HandlerErr :=
  h.addParsed key (.ok (.string (stringFieldUnescape value)))

def addBool : MetricHandler 𝔽 × Option HandlerErr :=
  h.addParsed key
    (match parseBool value with
    | some v => .ok (.bool v)
    | none => .error .unparseableBool)

end

/-- `SetTimestamp`. The product overflows. -/
def setTimestamp (tm : GoString) (h : MetricHandler 𝔽) : MetricHandler 𝔽 × Option HandlerErr :=
  match parseInt tm with
  | .error e => (h, some (.num e))
  | .ok v => (h.update fun m => m.setTime (Int64.ofInt (v * h.timePrecision)).toInt, none)

/-- The methods of `Handler`. -/
def methods : Handler (MetricHandler 𝔽) HandlerErr where
  setMeasurement := setMeasurement
  addTag := addTag
  addInt := addInt
  addUint := addUint
  addFloat := addFloat env
  addString := addString
  addBool := addBool
  setTimestamp := setTimestamp

/-- `Metric`. Without a metric it dereferences nil. -/
def getMetric (h : MetricHandler 𝔽) : MetricHandler 𝔽 × Option (Metric 𝔽) :=
  match h.metric with
  | none => (h, none)
  | some m =>
    if m.tm = zeroTime then
      let m := m.setTime (truncate (env.timeFunc h.timeCalls) h.timePrecision)
      ({ h with metric := some m, timeCalls := h.timeCalls + 1 }, some m)
    else (h, some m)

end MetricHandler

/-! ## The parser -/

/-- What `Parse` returns, or its panic. -/
inductive Parsing (𝔽 : Type) where
  | metrics (ms : List (Metric 𝔽))
  | error (e : ParseErr HandlerErr)
  | panic
deriving Repr, DecidableEq

/-- The default tags of a parser, a map. -/
abbrev DefaultTags := List (GoString × GoString)

/-- `applyDefaultTagsSingle`. -/
def applyDefaultTagsSingle (defaults : DefaultTags) (m : Metric 𝔽) : Metric 𝔽 :=
  defaults.foldl (fun m e => if m.hasTag e.1 then m else m.addTag e.1 e.2) m

/-- The loop of `Parse`. -/
def parseLoop (env : HandlerEnv 𝔽) (defaults : DefaultTags) :
    ℕ → LineMachine (MetricHandler 𝔽) → List (Metric 𝔽) → Option (Parsing 𝔽)
  | 0, _, _ => none
  | fuel + 1, m, metrics =>
    match m.nextResult (MetricHandler.methods env) (MetricHandler.getMetric env) with
    | (_, .eof) => some (.metrics (metrics.map (applyDefaultTagsSingle defaults)))
    | (_, .error e) => some (.error e)
    | (_, .panic) => some .panic
    | (m, .metric x) => parseLoop env defaults fuel m (metrics ++ [x])

/-- `Parse`. -/
def parse (env : HandlerEnv 𝔽) (defaults : DefaultTags) (fuel : ℕ) (h : MetricHandler 𝔽)
    (input : GoString) : Option (Parsing 𝔽) :=
  parseLoop env defaults fuel (LineMachine.setData input h) []

end Telegraf.Influx
