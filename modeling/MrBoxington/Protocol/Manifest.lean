import MrBoxington.Protocol.Digest

/-!
# Predictions and task manifests

A prediction lets an adapter rebuild the action of an invocation. A task manifest
is a list of predictions, oldest first, with one prediction for each invocation.
-/

namespace MrBoxington.Protocol

/-- What an adapter needs to rebuild an action from a prior run. -/
structure ActionPrediction where
  invocation : Digest
  action : Digest
  adapter : String
  payload : String
deriving DecidableEq, Repr

/-- The predictions of one task. -/
structure TaskActionManifest where
  version : ℕ
  task : String
  predictions : List ActionPrediction
deriving DecidableEq

/-- The most predictions of a manifest. -/
def maxTaskActionPredictions : ℕ := 16 * 1024

/-- The largest payload of a prediction, in bytes. -/
def maxActionPredictionPayload : ℕ := 256 * 1024

/-- What the code asks of its JSON library and of text formatting. -/
structure Json where
  isValue : String → Bool
  predictionBytes : ActionPrediction → ℕ
  debug : String → String

/-- A letter or digit of ASCII, a hyphen or an underscore. -/
def isAdapterChar (c : Char) : Bool :=
  ('0' ≤ c ∧ c ≤ '9') ∨ ('a' ≤ c ∧ c ≤ 'z') ∨ ('A' ≤ c ∧ c ≤ 'Z') ∨ c = '-' ∨ c = '_'

/-- An adapter's name. -/
def validAdapterName (value : String) : Bool :=
  value ≠ "" ∧ value.toList.all isAdapterChar

/-- A well-formed digest of BLAKE3. -/
def Digest.isBlake3 (digest : Digest) : Bool :=
  digest.algorithm = DigestAlgorithm.blake3.asStr ∧ digest.validate

namespace ActionPrediction

variable (json : Json) (prediction : ActionPrediction)

/-- Which constraint a prediction violates. -/
def constraintViolation : Option String :=
  if prediction.action.isBlake3 = false then
    some "action digest is not a valid blake3 digest"
  else if prediction.invocation.isBlake3 = false then
    some "invocation digest is not a valid blake3 digest"
  else if prediction.adapter = "" then some "adapter name is empty"
  else if validAdapterName prediction.adapter = false then
    some ("adapter name " ++ json.debug prediction.adapter ++
      " is not alphanumeric, '-', or '_'")
  else if maxActionPredictionPayload < prediction.payload.utf8ByteSize then
    some ("payload is " ++ toString prediction.payload.utf8ByteSize ++ " bytes, over the " ++
      toString maxActionPredictionPayload ++ " byte limit")
  else if json.isValue prediction.payload = false then some "payload is not valid JSON"
  else none

/-- A prediction without violation. -/
def validate : Except String Unit :=
  match prediction.constraintViolation json with
  | some reason => .error ("invalid action prediction: " ++ reason)
  | none => .ok ()

end ActionPrediction

/-- The identity of a task. -/
def validTaskIdentity (value : String) : Bool := isHash value

/-- A manifest of version one, with valid predictions for distinct invocations. -/
def TaskActionManifest.validate (json : Json) (manifest : TaskActionManifest) : Bool :=
  manifest.version = 1 ∧ validTaskIdentity manifest.task ∧
    manifest.predictions.length ≤ maxTaskActionPredictions ∧
    (∀ prediction ∈ manifest.predictions, prediction.validate json = .ok ()) ∧
    (manifest.predictions.map ActionPrediction.invocation).Nodup

end MrBoxington.Protocol
