import LeastCost.Failure
import LeastCost.Json.Schema

/-!
# Rejections on the wire

The body that is sent in place of a response.
-/

namespace LeastCost.Wire

open Json

structure Rejection where
  detail : String

namespace Rejection

def schema : Schema := .field _ (.required "detail" .string) .done

def codec : Codec Rejection :=
  schema.codec.through (fun (detail, ()) => { detail }) (fun r => (r.detail, ()))

def ofFailure (wording : Json.Fault → String) (failure : Failure) : Rejection :=
  ⟨failure.message wording⟩

def body (wording : Json.Fault → String) (failure : Failure) : String :=
  codec.encode (ofFailure wording failure)

end Rejection

end LeastCost.Wire
