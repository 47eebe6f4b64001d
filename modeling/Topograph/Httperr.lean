/-! # HTTP errors (`internal/httperr`) -/

namespace Topograph

/-- `httperr.Error`. -/
structure HTTPError where
  code : Nat
  message : String
  deriving DecidableEq, Repr

/-- The status codes of `net/http` that the program answers with by itself. -/
def statusOK : Nat := 200
def statusAccepted : Nat := 202
def statusBadRequest : Nat := 400
def statusNotFound : Nat := 404
def statusBadGateway : Nat := 502
def statusServiceUnavailable : Nat := 503

end Topograph
