import Telegraf.Metric

/-!
# Walks of SNMP tables

The errors of `Table.Build` with `walk` set. The callback breaks a walk with a `NestedError`, and
`Build` takes every `NestedError` for that. `Errorf` makes them of failed conversions and reconnects
too, so these are lost unless some field makes `Build` fail (`failures_reported_iff`).
-/

namespace Telegraf.Snmp

/-- An entry of the agent. -/
structure SnmpPDU (ν : Type*) where
  name : GoString
  value : ν

/-- The errors of a walk. -/
inductive WalkError where
  | breakWalk
  | converting
  | reconnecting
  | transport
deriving DecidableEq

/-- `err.(NestedError)`. -/
def WalkError.isNested : WalkError → Bool
  | transport => false
  | _ => true

/-- What `GoSNMP.Walk` or `BulkWalk` does : it hands entries to the callback, and then ends or
fails. Whether `Connect` succeeds after an error. -/
structure Try (ν : Type*) where
  entries : List (SnmpPDU ν)
  fails : Bool
  connects : Bool

/-- A field with its conversion, and the tries of its walk. -/
structure Field (ν : Type*) where
  oid : GoString
  oidIndexSuffix : GoString
  fieldConvert : ν → Option ν
  first : Try ν
  second : Try ν

/-- The errors of `Build`. -/
inductive BuildError where
  | emptyOid
  | bulkWalk
deriving DecidableEq

variable {ν : Type*}

namespace Field

variable (f : Field ν)

/-- The OID with a leading dot. -/
def dotted : GoString :=
  if f.oid.head? = some 46 then f.oid else 46 :: f.oid

/-- The callback of the walk. -/
def callback (ent : SnmpPDU ν) : Option WalkError :=
  if ent.name.length ≤ f.dotted.length ∨ ent.name.take (f.dotted.length + 1) ≠ f.dotted ++ [46] then
    some .breakWalk
  else if ¬f.oidIndexSuffix <:+ ent.name.drop f.dotted.length then none
  else if f.fieldConvert ent.value = none then some .converting
  else none

/-- The error of one try. -/
def attempt (t : Try ν) : Option WalkError :=
  (t.entries.findSome? f.callback).or (if t.fails then some .transport else none)

/-- `gosnmpWrapper.Walk`, with the error of the try before. -/
def walk : List (Try ν) → Option WalkError → Option WalkError
  | [], err => err
  | t :: ts, _ => do
    let err ← f.attempt t
    if t.connects then walk ts (some err) else some .reconnecting

/-- The error that `Build` returns at the field. -/
def buildError : Option BuildError :=
  if f.oid = [] then some .emptyOid
  else if (f.walk [f.first, f.second] none).any (!·.isNested) then some .bulkWalk
  else none

/-- The walk ends at the end of the entries or outside the OID. -/
def Ends : Prop :=
  f.walk [f.first, f.second] none ∈ [none, some .breakWalk]

/-- The try ends, is broken off or fails in transport, but not in a conversion. -/
def Converts (t : Try ν) : Prop :=
  f.attempt t ∈ [none, some .breakWalk, some .transport]

/-- No conversion fails in a try, and no reconnect after it. -/
def Clean : Prop :=
  f.Converts f.first ∧ (f.attempt f.first ≠ none → f.first.connects ∧
    f.Converts f.second ∧ (f.attempt f.second ≠ none → f.second.connects))

/-- There is no OID, or the walk fails twice, at last in transport. -/
def Fatal : Prop :=
  f.oid = [] ∨ f.attempt f.first ≠ none ∧ f.first.connects ∧
    f.attempt f.second = some .transport ∧ f.second.connects

variable {f}

theorem walk_eq : f.walk [f.first, f.second] none = (f.attempt f.first).bind fun _ =>
    if f.first.connects then (f.attempt f.second).bind fun err =>
      if f.second.connects then some err else some .reconnecting
    else some .reconnecting :=
  rfl

theorem buildError_eq_none_iff : f.buildError = none ↔ ¬f.Fatal := by
  have hnested : ∀ err : Option WalkError, err.any (!·.isNested) ↔ err = some .transport := by
    rintro (_ | _ | _ | _ | _) <;> decide
  have hfatal : f.Fatal ↔ f.oid = [] ∨ f.walk [f.first, f.second] none = some .transport := by
    rw [Fatal, walk_eq, Option.ne_none_iff_exists']
    cases f.first.connects <;> cases f.second.connects <;> simp [Option.bind_eq_some_iff]
  rw [hfatal, ← hnested, buildError]
  split_ifs <;> simp [*]

theorem Clean.ends (h : f.Clean) (hfatal : ¬f.Fatal) : f.Ends := by
  obtain ⟨-, hretry⟩ := h
  rw [Ends, walk_eq]
  rcases hfirst : f.attempt f.first with _ | _
  · simp
  · obtain ⟨hconnects, hsecond, hagain⟩ := hretry (by simp [hfirst])
    simp only [Converts, List.mem_cons, List.not_mem_nil, or_false] at hsecond
    rcases hsecond with h | h | h
    · simp [hconnects, h]
    · simp [hconnects, h, hagain]
    · exact absurd (.inr ⟨by simp [hfirst], hconnects, h, hagain (by simp [h])⟩) hfatal

end Field

/-- `Build` : the error of the first field that has one. -/
def build (fields : List (Field ν)) : Option BuildError :=
  fields.findSome? Field.buildError

/-- Without an error of `Build`, each walk has ended and no conversion or reconnect has failed. -/
def FailuresReported (fields : List (Field ν)) : Prop :=
  build fields = none → ∀ f ∈ fields, f.Ends ∧ f.Clean

/-- Failures are reported if and only if there are none or `Build` fails at some field for another
reason. -/
theorem failures_reported_iff (fields : List (Field ν)) :
    FailuresReported fields ↔ (∃ f ∈ fields, f.Fatal) ∨ ∀ f ∈ fields, f.Clean := by
  have hbuild : build fields = none ↔ ¬∃ f ∈ fields, f.Fatal := by
    simp only [build, List.findSome?_eq_none_iff, Field.buildError_eq_none_iff, not_exists, not_and]
  rw [FailuresReported, hbuild, or_iff_not_imp_left]
  refine forall_congr' fun hfatal => ⟨fun h f hf => (h f hf).2, fun h f hf => ⟨?_, h f hf⟩⟩
  exact (h f hf).ends fun hf' => hfatal ⟨f, hf, hf'⟩

/-- A value that cannot be converted, in both tries. -/
def unconvertible : Field Unit :=
  let walked : Try Unit := ⟨[⟨str ".1.1", ()⟩], false, true⟩
  ⟨str ".1", [], fun _ => none, walked, walked⟩

theorem unconvertible_not_reported :
    build [unconvertible] = none ∧ ¬FailuresReported [unconvertible] := by
  have hbuild : build [unconvertible] = none := by decide +kernel
  refine ⟨hbuild, fun h => ?_⟩
  have hends := (h hbuild unconvertible (by simp)).1
  revert hends
  unfold Field.Ends
  decide +kernel

end Telegraf.Snmp
