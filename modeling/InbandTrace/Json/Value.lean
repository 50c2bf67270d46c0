import InbandTrace.Json.Raw

namespace InbandTrace.Json

inductive Value where
  | null
  | bool (b : Bool)
  | number (x : Number)
  | string (s : List Char)
  | array (items : List Value)
  | object (members : List (List Char × Value))
  deriving Inhabited, Repr

/-- Arrays and objects within each other, counted from the outermost, stay below this. -/
def maxNesting : Nat := 127

mutual

def Raw.value? (depth : Nat) : Raw → Option Value
  | .null => some .null
  | .bool b => some (.bool b)
  | .number x => x.number?.map .number
  | .string s => (decode? s).map .string
  | .array items =>
      match depth with
      | 0 => none
      | depth + 1 => (Raw.items? depth items).map .array
  | .object members =>
      match depth with
      | 0 => none
      | depth + 1 => (Raw.members? depth members).map .object

def Raw.items? (depth : Nat) : List Raw → Option (List Value)
  | [] => some []
  | r :: rest => do return (← Raw.value? depth r) :: (← Raw.items? depth rest)

def Raw.members? (depth : Nat) : List (List Piece × Raw) → Option (List (List Char × Value))
  | [] => some []
  | (key, r) :: rest => do
      return (← decode? key, ← Raw.value? depth r) :: (← Raw.members? depth rest)

end

namespace Value

mutual

def text : Value → List Char
  | .null => "null".toList
  | .bool true => "true".toList
  | .bool false => "false".toList
  | .number x => x.text
  | .string s => quote s
  | .array items => '[' :: itemsText items ++ [']']
  | .object members => '\x7b' :: membersText members ++ ['\x7d']

def itemsText : List Value → List Char
  | [] => []
  | [v] => text v
  | v :: w :: rest => text v ++ ',' :: itemsText (w :: rest)

def membersText : List (List Char × Value) → List Char
  | [] => []
  | [(key, v)] => quote key ++ ':' :: text v
  | (key, v) :: m :: rest => quote key ++ ':' :: text v ++ ',' :: membersText (m :: rest)

end

/-- Text order by code points, which is the order of the UTF-8 bytes. -/
def keyBefore : List Char → List Char → Bool
  | _, [] => false
  | [], _ :: _ => true
  | a :: as, b :: bs => a.toNat < b.toNat || (a == b && keyBefore as bs)

def insertMember (key : List Char) (v : Value) :
    List (List Char × Value) → List (List Char × Value)
  | [] => [(key, v)]
  | (k, w) :: rest =>
      if key = k then (key, v) :: rest
      else if keyBefore key k then (key, v) :: (k, w) :: rest
      else (k, w) :: insertMember key v rest

mutual

/-- Members of every object sorted by key, the last of several with one key. -/
def normal : Value → Value
  | .array items => .array (normalItems items)
  | .object members => .object (normalMembers [] members)
  | v => v

def normalItems : List Value → List Value
  | [] => []
  | v :: rest => normal v :: normalItems rest

/-- The first list holds the sorted members so far. -/
def normalMembers (sorted : List (List Char × Value)) :
    List (List Char × Value) → List (List Char × Value)
  | [] => sorted
  | (key, v) :: rest => normalMembers (insertMember key (normal v) sorted) rest

end

def ofString (s : String) : Value := .string s.toList

def ofNat (n : Nat) : Value := .number (.natural n.toUInt64)

def ofOption {α : Type} (f : α → Value) : Option α → Value
  | none => .null
  | some x => f x

def member (key : String) (v : Value) : List Char × Value := (key.toList, v)

def optionalMember {α : Type} (key : String) (f : α → Value) : Option α → List (List Char × Value)
  | none => []
  | some x => [member key (f x)]

def ofTextInOrder? (s : List Char) : Option Value := do
  let (raw, rest) ← readRaw s
  if (skipBlanks rest).isEmpty then raw.value? maxNesting else none

def ofText? (s : List Char) : Option Value := (ofTextInOrder? s).map normal

end Value

end InbandTrace.Json
