import Hedronetes.Apply.ServerSide

/-!
# The texts of merge keys

Ownership records name a list item by the text of its merge key. The development
asks of the JSON library only that it reads back the keys it printed; a printer
and a parser of just these texts do.
-/

namespace Hedronetes.Apply

/-- Merge keys are read back as printed. -/
def JsonText.Lawful (text : JsonText) : Prop := ∀ key value,
  text.parse (text.print (.object [(key, .string value)])) = some (.object [(key, .string value)])

/-- A string with its quotes and backslashes escaped. -/
def escape : List Char → List Char
  | [] => []
  | c :: cs => if c = '"' ∨ c = '\\' then '\\' :: c :: escape cs else c :: escape cs

/-- A string up to its closing quote, and what follows. -/
def unquote : List Char → Option (List Char × List Char)
  | [] => none
  | '"' :: rest => some ([], rest)
  | '\\' :: c :: rest => (unquote rest).map fun s => (c :: s.1, s.2)
  | c :: rest => (unquote rest).map fun s => (c :: s.1, s.2)

def printKey : Json → String
  | .object [(key, .string value)] =>
    String.ofList ('\x7b' :: '"' :: escape key.toList ++
      '"' :: ':' :: '"' :: escape value.toList ++ ['"', '\x7d'])
  | _ => ""

def parseKey (s : String) : Option Json :=
  match s.toList with
  | '\x7b' :: '"' :: text =>
    match unquote text with
    | some (key, ':' :: '"' :: text) =>
      match unquote text with
      | some (value, ['\x7d']) => some (.object [(String.ofList key, .string (String.ofList value))])
      | _ => none
    | _ => none
  | _ => none

/-- JSON texts, of merge keys only. -/
def keyText : JsonText where
  parse := parseKey
  print := printKey

theorem unquote_escape (cs rest : List Char) :
    unquote (escape cs ++ '"' :: rest) = some (cs, rest) := by
  induction cs with
  | nil => rfl
  | cons c cs ih =>
    unfold escape
    split_ifs with hc
    · change (unquote (escape cs ++ '"' :: rest)).map _ = _
      rw [ih]
      rfl
    · rw [not_or] at hc
      rw [List.cons_append, unquote.eq_4]
      · rw [ih]
        rfl
      · exact fun h => hc.1 h
      · exact fun d rest h _ => hc.2 h

theorem keyText_lawful : keyText.Lawful := by
  intro key value
  simp only [keyText, printKey, parseKey, String.toList_ofList]
  simp [unquote_escape]

end Hedronetes.Apply
