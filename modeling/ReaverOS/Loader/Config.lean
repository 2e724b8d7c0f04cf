import Mathlib.Tactic.Ring
import ReaverOS.Rosestd.StringView

namespace ReaverOS.Loader.Config

open Bootinit List Option

def npos : ℕ := 2 ^ 64 - 1

structure View where
  data : ℕ
  size : ℕ
  deriving DecidableEq

namespace View

def text (buffer : List Char) (v : View) : List Char := (buffer.drop v.data).take v.size

def removePrefix (v : View) (n : ℕ) : View :=
  ⟨(v.data + n) % 2 ^ 64, (v.size + (2 ^ 64 - n)) % 2 ^ 64⟩

def removeSuffix (v : View) (n : ℕ) : View :=
  ⟨v.data, (v.size + (2 ^ 64 - n)) % 2 ^ 64⟩

def find (buffer : List Char) (v : View) (c : Char) : ℕ :=
  ((v.text buffer).findIdx? (· == c)).getD npos

def findFirstNotOf (buffer : List Char) (v : View) (c : Char) (pos : ℕ) : ℕ :=
  ((((v.text buffer).drop pos).findIdx? (· != c)).map (pos + ·)).getD npos

end View

def substr (v : View) (pos num : ℕ) : View :=
  let v := v.removePrefix pos
  if num ≠ npos then v.removeSuffix ((v.size + (2 ^ 64 - num)) % 2 ^ 64) else v

def lookupLoop (buffer key : List Char) : (fuel : ℕ) → View → Option View
  | 0, _ => none
  | fuel + 1, config =>
    let pos := config.find buffer '\n'
    if pos = npos then none
    else
      let line := substr config 0 pos
      let colon := line.find buffer ':'
      if colon = npos then none
      else if StringView.equal ((substr line 0 colon).text buffer) key then
        some (substr line (line.findFirstNotOf buffer ' ' (colon + 1)) npos)
      else lookupLoop buffer key fuel (config.removePrefix (pos + 1))

/-- `char_traits<char>::length` of what can be read from a pointer on. -/
def traitsLength (memory : List Char) : Option ℕ := memory.findIdx? (· == '\x00')

/-- The view is made from a pointer alone, so the memory is the buffer and what lies behind it. -/
def lookup (memory key : List Char) : Option View :=
  (traitsLength memory).bind fun size ↦ lookupLoop memory key (memory.length + 1) ⟨0, size⟩

structure Line where
  name : List Char
  rest : List Char
  name_clean : ∀ c ∈ name, c ≠ ':' ∧ c ≠ '\n'
  rest_clean : ∀ c ∈ rest, c ≠ '\n'

def Line.chars (l : Line) : List Char := l.name ++ ':' :: l.rest

def Line.value (l : Line) : List Char := l.rest.dropWhile (· == ' ')

/-- What the loop finds: without a value a view from the character before the line on. -/
def found (key : List Char) : (o : ℕ) → List Line → Option View
  | _, [] => none
  | o, l :: lines =>
    if StringView.equal l.name key then
      some (if l.value = [] then ⟨(o + npos) % 2 ^ 64, l.chars.length + 1⟩
        else ⟨o + (l.chars.length - l.value.length), l.value.length⟩)
    else found key (o + l.chars.length + 1) lines

variable {lines : List Line} {l : Line} {o : ℕ} {buffer key a text rest : List Char}

end ReaverOS.Loader.Config
