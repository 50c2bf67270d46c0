import InbandTrace.Uuid

namespace InbandTrace

inductive Route where
  | trace (id : Uuid)
  | echo
  deriving DecidableEq, Repr

inductive QueryError where
  | unexpected (key : List Char)
  | repeated
  | invalid (error : Uuid.Error)
  | missing
  deriving DecidableEq, Repr

def QueryError.message : QueryError → String
  | .unexpected key => "unexpected parameter '" ++ String.ofList key ++ "'"
  | .repeated => "uuid given more than once"
  | .invalid e => "invalid uuid: " ++ e.message
  | .missing => "missing uuid"

inductive RouteError where
  | notFound (path : List Char)
  | badQuery (error : QueryError)
  deriving DecidableEq, Repr

def RouteError.message : RouteError → String
  | .notFound path => "no such endpoint: " ++ String.ofList path
  | .badQuery e => "bad query: " ++ e.message

def RouteError.status : RouteError → Nat
  | .notFound _ => 404
  | .badQuery _ => 400

namespace Route

def parameter (s : List Char) : List Char × List Char :=
  (s.takeWhile (· != '='), (s.dropWhile (· != '=')).drop 1)

def parameters (query : List Char) : List (List Char) :=
  (Text.splitOn '&' query).filter fun p => !p.isEmpty

def readParameters (id : Option Uuid) : List (List Char) → Except QueryError Uuid
  | [] =>
      match id with
      | some id => .ok id
      | none => .error .missing
  | p :: rest =>
      let (key, value) := parameter p
      if key ≠ "uuid".toList then .error (.unexpected key)
      else if id.isSome then .error .repeated
      else match Uuid.ofText value with
        | .ok id => readParameters (some id) rest
        | .error e => .error (.invalid e)

def ofRequest (path query : List Char) : Except RouteError Route :=
  if path = "/trace".toList then
    match readParameters none (parameters query) with
    | .ok id => .ok (.trace id)
    | .error e => .error (.badQuery e)
  else if path = "/echo".toList then .ok .echo
  else .error (.notFound path)

end Route

end InbandTrace
