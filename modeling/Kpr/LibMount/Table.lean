import Kpr.Lib.Words
import Kpr.LibMount.Fstab

namespace LibMount

-- What a C function sees of a string.
def cString (s : List Char) : List Char :=
  s.takeWhile (· ≠ '\x00')

-- What a line of the table says.
inductive Line
  | empty
  | invalid (text : List Char)
  | entry (special dir fstype data : List Char)
  deriving DecidableEq

namespace Line

-- The first field begins at the beginning of the line, the other ones are the words which follow.
def of (line : List Char) : Line :=
  let text   := line.takeWhile (· ≠ '#')
  let first  := text.takeWhile (!isspace ·)
  let others := (text.dropWhile (!isspace ·)).wordsP isspace
  match text, first, others with
  | [], _, _                              => .empty
  | _, _ :: _, dir :: fstype :: []        => .entry first dir fstype []
  | _, _ :: _, dir :: fstype :: data :: _ => .entry first dir fstype data
  | _, _, _                               => .invalid text

-- The file system which is to be mounted.
def request : Line → Option Request
  | entry special dir fstype data => some {
    special := cString special
    dir     := stripSlash (cString dir)
    fstype  := cString fstype
    rwflag  := 0
    data    := cString data }
  | _ => none

variable {σ : Type} (verbose : Bool) (fn : List Char) (ops : σ → Request → Int × σ)

-- What happens for the line with the given number.
def perform (w : World σ) : Line × Nat → World σ
  | (.empty, _)               => w
  | (.invalid text, n)        => if verbose then w.print (.invalidLine fn n (cString text)) else w
  | (.entry sp dir ty data, n) =>
    mountEntry verbose fn ops n (cString sp) (cString dir) (cString ty) (cString data) w

end Line

-- The lines of a file. There may be an empty one at the end.
def table (file : List Char) : List Line :=
  (file.splitOn '\n').map Line.of

-- What can be written into a table.

structure Field where
  chars : List Char
  ne    : chars ≠ []
  plain : ∀ c ∈ chars, isspace c = false ∧ c ≠ '#' ∧ c ≠ '\x00'

structure Blank where
  chars : List Char
  ne    : chars ≠ []
  blank : ∀ c ∈ chars, isspace c = true ∧ c ≠ '\n'

structure Comment where
  chars  : List Char
  begins : ∀ c ∈ chars.head?, c = '#'
  oneRow : '\n' ∉ chars

-- At least three fields, with any number of further ones. Only the first of these is used.
structure Row where
  special  : Field
  dir      : Blank × Field
  fstype   : Blank × Field
  more     : List (Blank × Field)
  trailing : Option Blank
  comment  : Comment

namespace Row

def others (r : Row) : List (Blank × Field) :=
  r.dir :: r.fstype :: r.more

def body (r : Row) : List Char :=
  r.special.chars ++ r.others.flatMap (fun f => f.fst.chars ++ f.snd.chars) ++
    (r.trailing.map Blank.chars).getD []

def data (r : Row) : List Char :=
  (r.more.head?.map (·.snd.chars)).getD []

end Row

inductive Item
  | row (r : Row)
  | comment (c : Comment)

namespace Item

def chars : Item → List Char
  | row r     => r.body ++ r.comment.chars
  | comment c => c.chars

def line : Item → Line
  | row r     => .entry r.special.chars r.dir.snd.chars r.fstype.snd.chars r.data
  | comment _ => .empty

def request : Item → Option Request
  | row r => some {
    special := r.special.chars
    dir     := stripSlash r.dir.snd.chars
    fstype  := r.fstype.snd.chars
    rwflag  := 0
    data    := r.data }
  | comment _ => none

end Item

def render (items : List Item) : List Char :=
  items.flatMap fun i => i.chars ++ ['\n']

end LibMount
