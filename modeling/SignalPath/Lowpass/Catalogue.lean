import SignalPath.Lowpass.Bank
import SignalPath.Number.Decimal

/-!
# Catalogue of designed banks

Designing a bank is slow, and a program uses only a few of them. The catalogue keeps every bank that
was designed, under its dimensions and the exact ratio of its rates, and hands it out again. Entries
are numbered in the order of their publication and are never changed or removed.

The shape of the window is not part of the key: every specification has the same one.
-/

namespace SignalPath

/-- What identifies a bank: its dimensions and the bit pattern of its ratio. -/
structure Key where
  /-- The number of coefficients in each row. -/
  length : Nat
  /-- The number of rows. -/
  phases : Nat
  /-- The bit pattern of the ratio of rates. -/
  pattern : UInt64
deriving DecidableEq, Repr

namespace Key

/-- The ratio of rates that a key stands for. -/
def ratio (k : Key) : Float := Float.ofBits k.pattern

/-- Keys are ordered by length, then by number of rows, then by pattern. -/
instance : Ord Key where
  compare a b :=
    (compare a.length b.length).then
      ((compare a.phases b.phases).then (compare a.pattern.toNat b.pattern.toNat))

/-- The text of a key in the catalogue's journal. -/
def text (k : Key) : String :=
  "FirKey \x7b n: " ++ toString k.length ++ ", res: " ++ toString k.phases
    ++ ", cycles_per_sample_bits: " ++ toString k.pattern.toNat ++ " \x7d"

end Key

/-- The key of the bank for a specification. -/
def Spec.key (spec : Spec Float) : Key :=
  ⟨spec.length, spec.phases, spec.ratio.pattern⟩

/-- What happened to a request. -/
inductive Event where
  /-- The design of a bank with these dimensions was begun. -/
  | designed (length phases : Nat) (ratio : Float)
  /-- The bank with this key was handed out again. -/
  | found (key : Key)

/-- The line of an event in the journal. -/
def Event.text : Event → String
  | .designed length phases ratio =>
    "designing FIR table: N=" ++ toString length ++ " RES=" ++ toString phases ++ " ratio="
      ++ Decimal.shortest ratio
  | .found key => "FIR cache hit: " ++ key.text

/-- The largest number of coefficients in memory: with four bytes for each of them they fill half of
the address space. -/
def largestBank : Nat := 2305843009213693951

/-- Why the bank for a specification cannot be designed. -/
inductive BankFault where
  /-- The number of coefficients does not fit a word. -/
  | overflow
  /-- There cannot be that many coefficients in memory. -/
  | capacity
deriving DecidableEq, Repr

/-- The wording of a fault. -/
def BankFault.message : BankFault → String
  | .overflow => "attempt to multiply with overflow"
  | .capacity => "capacity overflow"

/-- Why the bank for a specification cannot be designed, if so. -/
def Spec.bankFault? (spec : Spec Float) : Option BankFault :=
  let coefficients := spec.length * spec.phases
  if largestWord < coefficients then some .overflow
  else if largestBank < coefficients then some .capacity
  else none

/-- A published bank. -/
structure Entry where
  /-- The key under which it is kept. -/
  key : Key
  /-- How many banks were published before it. -/
  serial : Nat
  /-- The bank. -/
  bank : Bank Float32

/-- The banks designed so far, and what was noted about the requests for them. -/
structure Catalogue where
  /-- The published banks in order. -/
  entries : Array Entry
  /-- The events in order. -/
  journal : Array Event

namespace Catalogue

/-- A catalogue without banks. -/
def empty : Catalogue := ⟨#[], #[]⟩

/-- The bank with a key, if it has been designed. -/
def find? (c : Catalogue) (key : Key) : Option Entry :=
  c.entries.find? fun e => e.key == key

/-- Whether the bank with a key has been designed. -/
def contains (c : Catalogue) (key : Key) : Bool := (c.find? key).isSome

/-- The number of banks. -/
def size (c : Catalogue) : Nat := c.entries.size

/-- Hands out the bank for a specification, which is designed and published first if need be. -/
def obtain (c : Catalogue) (spec : Spec Float) : Catalogue × Entry :=
  match c.find? spec.key with
  | some entry => ({ c with journal := c.journal.push (.found spec.key) }, entry)
  | none =>
    let entry : Entry := ⟨spec.key, c.size, Bank.ofSpec spec⟩
    let event := Event.designed spec.length spec.phases spec.ratio.value
    (⟨c.entries.push entry, c.journal.push event⟩, entry)

/-- As `obtain`, for a specification that nobody checked. Of a bank that cannot be designed only the
attempt is noted. -/
def design (c : Catalogue) (spec : Spec Float) : Catalogue × Except BankFault Entry :=
  match c.find? spec.key, spec.bankFault? with
  | none, some e =>
    let event := Event.designed spec.length spec.phases spec.ratio.value
    ({ c with journal := c.journal.push event }, .error e)
  | _, _ =>
    let (c', entry) := c.obtain spec
    (c', .ok entry)

/-- Hands out the bank for a conversion, if a converter can run it. -/
def request (c : Catalogue) (clock sample passband : Float) :
    Catalogue × Except SpecFault Entry :=
  match Spec.checked clock sample passband with
  | .error e => (c, .error e)
  | .ok spec =>
    let (c', entry) := c.obtain spec
    (c', .ok entry)

end Catalogue

end SignalPath
