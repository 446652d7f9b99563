import Tilework.Json.Scan

/-!
# Reading document values

Values are read for a purpose: `readText` asks for a string, `readList` for a list, and so on. What
else stands there is named in the fault. A value that nobody asks for is skipped, to any depth.
Loops over items and members are bounded by the length of the text before them, since each round
reads at least one character.
-/

namespace Tilework.Json

def refuse (expected : String) (cs : List Char) : DocumentFault :=
  let found : Except DocumentFault Found := match cs with
    | 'n' :: cs => (keyword "ull".toList cs).map fun _ => .null
    | 't' :: cs => (keyword "rue".toList cs).map fun _ => .bool true
    | 'f' :: cs => (keyword "alse".toList cs).map fun _ => .bool false
    | '-' :: cs => (unsignedNumber true cs).map (·.1)
    | '"' :: cs => (stringRest .plain cs).map fun (text, _) => .text (String.ofList text)
    | '[' :: _ => .ok .list
    | '\x7b' :: _ => .ok .object
    | c :: _ => if c.isDigit then (unsignedNumber false cs).map (·.1) else .error .malformed
    | [] => .error .ended
  match found with
  | .ok found => .wrongType found expected
  | .error fault => fault

def readText : Reader String := fun cs =>
  match skipBlanks cs with
  | [] => .error .ended
  | '"' :: cs => (stringRest .plain cs).map fun (text, rest) => (String.ofList text, rest)
  | cs => .error (refuse "a string" cs)

def readBool : Reader Bool := fun cs =>
  match skipBlanks cs with
  | [] => .error .ended
  | 't' :: cs => (keyword "rue".toList cs).map fun rest => (true, rest)
  | 'f' :: cs => (keyword "alse".toList cs).map fun rest => (false, rest)
  | cs => .error (refuse "a boolean" cs)

def readNull : Reader Unit := fun cs =>
  match skipBlanks cs with
  | [] => .error .ended
  | 'n' :: cs => (keyword "ull".toList cs).map fun rest => ((), rest)
  | cs => .error (refuse "unit" cs)

def readOptional {α : Type} (read : Reader α) : Reader (Option α) := fun cs =>
  match skipBlanks cs with
  | 'n' :: cs => (keyword "ull".toList cs).map fun rest => (none, rest)
  | cs => (read cs).map fun (value, rest) => (some value, rest)

def openingQuote (cs : List Char) : Except DocumentFault (List Char) :=
  match skipBlanks cs with
  | [] => .error .ended
  | c :: cs => if c = '"' then .ok cs else .error .malformed

def colon (cs : List Char) : Except DocumentFault (List Char) :=
  match skipBlanks cs with
  | [] => .error .ended
  | c :: cs => if c = ':' then .ok cs else .error .malformed

/-- The bracket or brace that ends a list or an object. -/
def closing (close : Char) (cs : List Char) : Except DocumentFault (List Char) :=
  match skipBlanks cs with
  | [] => .error .ended
  | c :: cs => if c = close then .ok cs else .error .malformed

/-- Whether a list goes on, and the text from there: at the next item, or at the end. -/
def nextItem (first : Bool) : Reader Bool := fun cs =>
  match skipBlanks cs with
  | [] => .error .ended
  | c :: cs =>
    if c = ']' then .ok (false, c :: cs)
    else if first then .ok (true, c :: cs)
    else if c = ',' then
      match skipBlanks cs with
      | [] => .error .ended
      | d :: ds => if d = ']' then .error .malformed else .ok (true, d :: ds)
    else .error .malformed

def readItem? {α : Type} (first : Bool) (read : Reader α) : Reader (Option α) := fun cs => do
  let (more, cs) ← nextItem first cs
  if more then
    let (item, cs) ← read cs
    return (some item, cs)
  else return (none, cs)

def readItems {α : Type} (read : Reader α) : (rounds : Nat) → (first : Bool) → Reader (List α)
  | 0, _, _ => .error .ended
  | rounds + 1, first, cs => do
    match ← readItem? first read cs with
    | (none, cs) => return ([], cs)
    | (some item, cs) =>
      let (items, cs) ← readItems read rounds false cs
      return (item :: items, cs)

def readList {α : Type} (read : Reader α) : Reader (List α) := fun cs =>
  match skipBlanks cs with
  | [] => .error .ended
  | '[' :: cs => do
    let (items, cs) ← readItems read (cs.length + 1) true cs
    return (items, ← closing ']' cs)
  | cs => .error (refuse "a sequence" cs)

/-- Whether an object goes on, and the text from there: behind the quote that opens the next key,
or at the end. -/
def nextMember (first : Bool) : Reader Bool := fun cs =>
  match skipBlanks cs with
  | [] => .error .ended
  | c :: cs =>
    if c = '\x7d' then .ok (false, c :: cs)
    else if first then if c = '"' then .ok (true, cs) else .error .malformed
    else if c = ',' then (openingQuote cs).map fun cs => (true, cs)
    else .error .malformed

mutual

def skipValue : (rounds : Nat) → List Char → Except DocumentFault (List Char)
  | 0, _ => .error .ended
  | rounds + 1, cs =>
    match skipBlanks cs with
    | [] => .error .ended
    | 'n' :: cs => keyword "ull".toList cs
    | 't' :: cs => keyword "rue".toList cs
    | 'f' :: cs => keyword "alse".toList cs
    | '-' :: cs => skipNumber cs
    | '"' :: cs => skipString .plain cs
    | '[' :: cs => skipItems rounds true cs
    | '\x7b' :: cs => skipMembers rounds true cs
    | c :: cs => if c.isDigit then skipNumber (c :: cs) else .error .malformed

def skipItems : (rounds : Nat) → (first : Bool) → List Char → Except DocumentFault (List Char)
  | 0, _, _ => .error .ended
  | rounds + 1, first, cs => do
    let (more, cs) ← nextItem first cs
    if more then skipItems rounds false (← skipValue rounds cs) else closing ']' cs

def skipMembers : (rounds : Nat) → (first : Bool) → List Char → Except DocumentFault (List Char)
  | 0, _, _ => .error .ended
  | rounds + 1, first, cs => do
    let (more, cs) ← nextMember first cs
    if more then
      let cs ← colon (← skipString .plain cs)
      skipMembers rounds false (← skipValue rounds cs)
    else closing '\x7d' cs

end

def skip (cs : List Char) : Except DocumentFault (List Char) := skipValue (2 * cs.length + 2) cs

/-- Read the members of an object one after another into a record. `member` reads what follows the
key: it decides about repeated keys before the colon. -/
def readMembers {σ : Type} (member : String → σ → Reader σ) :
    (rounds : Nat) → (first : Bool) → σ → Reader σ
  | 0, _, _, _ => .error .ended
  | rounds + 1, first, record, cs => do
    let (more, cs) ← nextMember first cs
    if more then
      let (key, cs) ← stringRest .plain cs
      let (record, cs) ← member (String.ofList key) record cs
      readMembers member rounds false record cs
    else return (record, cs)

def readField {α σ : Type} (name : String) (present : Option α) (read : Reader α) (put : α → σ) :
    Reader σ := fun cs =>
  if present.isSome then .error (.duplicateField name)
  else do
    let (value, cs) ← read (← colon cs)
    return (put value, cs)

def skipField {σ : Type} (record : σ) : Reader σ := fun cs => do
  return (record, ← skip (← colon cs))

/-- A field of a record: its key, whether it has no default, the reader for its value, and its place
among the fields read so far. -/
structure Column (σ : Type) where
  key : String
  required : Bool
  {α : Type}
  read : Reader α
  place : σ → Option α
  put : α → σ → σ

/-- Read the field with this key. A member that no field has for its key is skipped. -/
def readMember {σ : Type} : List (Column σ) → String → σ → Reader σ
  | [], _, record => skipField record
  | column :: columns, key, record =>
    if key = column.key then
      readField key (column.place record) column.read fun value => column.put value record
    else readMember columns key record

/-- Read the fields from a list of them in order. Behind the end of the list the defaults stand. -/
def readColumns {σ : Type} (expected : String) : (index : Nat) → List (Column σ) → σ → Reader σ
  | _, [], record, cs => .ok (record, cs)
  | index, column :: columns, record, cs => do
    match ← readItem? (index == 0) column.read cs with
    | (some value, cs) => readColumns expected (index + 1) columns (column.put value record) cs
    | (none, cs) =>
      if column.required then .error (.wrongLength index expected)
      else readColumns expected (index + 1) columns record cs

/-- Read a record, written as an object of its fields or as a list of them in order. -/
def readRecord {σ α : Type} (expected : String) (empty : σ) (columns : List (Column σ))
    (complete : σ → Except DocumentFault α) : Reader α := fun cs =>
  match skipBlanks cs with
  | [] => .error .ended
  | '[' :: cs => do
    let length := s!"{expected} with {columns.length} elements"
    let (record, cs) ← readColumns length 0 columns empty cs
    let value ← complete record
    return (value, ← closing ']' cs)
  | '\x7b' :: cs => do
    let (record, cs) ← readMembers (readMember columns) (cs.length + 1) true empty cs
    let value ← complete record
    return (value, ← closing '\x7d' cs)
  | cs => .error (refuse expected cs)

def readAll {α : Type} (read : Reader α) (text : String) : Except DocumentFault α := do
  let (value, rest) ← read text.toList
  if skipBlanks rest = [] then return value else throw .malformed

end Tilework.Json
