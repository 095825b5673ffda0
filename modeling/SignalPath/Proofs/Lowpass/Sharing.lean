import Mathlib.Data.List.Dedup
import SignalPath.Proofs.Lowpass.Dimensions
import SignalPath.Proofs.Lowpass.Entries
import SignalPath.Proofs.Number.Patterns
import SignalPath.Rate.TwoStage

/-!
# Banks that are shared

Whatever is asked of a catalogue and whether or not it fails, the banks that it hands out are those
that would be designed on the spot, and whoever asks for the same key again gets the same one. The
shape of the window is missing in the key, but there is only one shape, and the key tells everything
else that a bank is made from.

What a call publishes depends on its arguments alone: the catalogue after any calls is made up from
the specifications that they came to, in order.
-/

namespace SignalPath

/-! ## Keys -/

namespace Spec

theorem shape_of_ofRatio {ratio : Ratio Float} {sample passband : Float} {spec : Spec Float}
    (h : ofRatio ratio sample passband = .ok spec) : spec.shape = kaiserShape := by
  obtain ⟨n, -, h⟩ := bind_eq_ok_iff.mp h
  obtain ⟨length, -, h⟩ := bind_eq_ok_iff.mp h
  cases h
  rfl

theorem shape_of_checked {clock sample passband : Float} {spec : Spec Float}
    (h : checked clock sample passband = .ok spec) : spec.shape = kaiserShape := by
  obtain ⟨-, -, hderive, -⟩ := checked_eq_ok_iff_derive.mp h
  exact shape_of_ofRatio hderive

/-- The banks of conversions that a converter can run always fit. -/
theorem bankFault?_of_checked {clock sample passband : Float} {spec : Spec Float}
    (h : checked clock sample passband = .ok spec) : spec.bankFault? = none := by
  obtain ⟨-, -, ⟨-, hlength⟩, -⟩ := of_checked_eq_ok h
  have hphases : spec.phases ≤ 285 := by
    by_cases hfinite : sample.isFinite = true
    · exact phases_le h hfinite
    · rw [phases_of_infinite h hfinite]
      decide
  have hproduct : spec.length * spec.phases ≤ 16384 * 285 :=
    Nat.mul_le_mul (Nat.le_of_lt hlength) hphases
  have hlargest : 16384 * 285 ≤ largestBank ∧ 16384 * 285 ≤ largestWord := by decide
  unfold bankFault?
  dsimp only
  rw [if_neg (by omega), if_neg (by omega)]

end Spec

theorem Spec.bankFault?_eq {spec spec' : Spec Float} (h : spec.key = spec'.key) :
    spec.bankFault? = spec'.bankFault? := by
  rw [Spec.key, Spec.key, Key.mk.injEq] at h
  rw [Spec.bankFault?, Spec.bankFault?, h.1, h.2.1]

/-- Specifications with the same key and the same window have the same bank. -/
theorem Bank.ofSpec_eq {spec spec' : Spec Float} (hkey : spec.key = spec'.key)
    (hshape : spec.shape = spec'.shape) : Bank.ofSpec spec = Bank.ofSpec spec' := by
  obtain ⟨length, phases, ⟨value, payload⟩, shape, hodd, hpos⟩ := spec
  obtain ⟨length', phases', ⟨value', payload'⟩, shape', hodd', hpos'⟩ := spec'
  obtain rfl : shape = shape' := hshape
  rw [Spec.key, Spec.key, Key.mk.injEq] at hkey
  obtain ⟨hlength, hphases, hpattern⟩ := hkey
  obtain rfl : length = length' := hlength
  obtain rfl : phases = phases' := hphases
  obtain rfl : value = value' := Ratio.value_eq_of_pattern_eq hpattern
  rfl

namespace Catalogue

/-! ## Calls -/

/-- What a caller asks of a catalogue: the bank for a specification of unchecked rates, which are
given by their patterns, or the banks for a converter in one stage or in two. -/
inductive Call where
  | design (clock sample : UInt64) (passband : Float)
  | single (clock sample passband : Float)
  | double (clock sample : Float)

/-- Why a call fails. -/
inductive CallFault where
  | spec (e : SpecFault)
  | bank (e : BankFault)

/-- The catalogue after a call, and the entries that the call hands out. -/
def perform (c : Catalogue) : Call → Catalogue × Except CallFault (List Entry)
  | .design clock sample passband =>
    match Spec.ofPatterns clock sample passband with
    | .error e => (c, .error (.spec e))
    | .ok spec => match c.design spec with
      | (c', .error e) => (c', .error (.bank e))
      | (c', .ok entry) => (c', .ok [entry])
  | .single clock sample passband =>
    match c.request clock sample passband with
    | (c', .error e) => (c', .error (.spec e))
    | (c', .ok entry) => (c', .ok [entry])
  | .double clock sample =>
    match Plan.ofRates clock sample with
    | .error e => (c, .error (.spec (.rates e)))
    | .ok p => match p.request c with
      | (c', .error e) => (c', .error (.spec e))
      | (c', .ok (first, second)) => (c', .ok [first, second])

/-- The catalogue after calls in order, whether or not they fail. -/
def after (c : Catalogue) (calls : List Call) : Catalogue :=
  calls.foldl (fun c call => (c.perform call).1) c

/-- The entries of an answer. -/
def entriesOf : Except CallFault (List Entry) → List Entry
  | .ok entries => entries
  | .error _ => []

/-- All entries that calls in order hand out. -/
def handed (c : Catalogue) : List Call → List Entry
  | [] => []
  | call :: calls => entriesOf (c.perform call).2 ++ (c.perform call).1.handed calls

/-- The specifications that a call comes to in order, with the fault that it ends in, if any. They
do not depend on the catalogue. -/
def Call.asked : Call → List (Spec Float) × Option CallFault
  | .design clock sample passband =>
    match Spec.ofPatterns clock sample passband with
    | .error e => ([], some (.spec e))
    | .ok spec => match spec.bankFault? with
      | some e => ([], some (.bank e))
      | none => ([spec], none)
  | .single clock sample passband =>
    match Spec.checked clock sample passband with
    | .error e => ([], some (.spec e))
    | .ok spec => ([spec], none)
  | .double clock sample =>
    match Plan.ofRates clock sample with
    | .error e => ([], some (.spec (.rates e)))
    | .ok p => match Spec.checked p.clock p.between p.passband with
      | .error e => ([], some (.spec e))
      | .ok first => match Spec.checked p.between p.sample p.passband with
        | .error e => ([first], some (.spec e))
        | .ok second => ([first, second], none)

/-- The specifications that calls come to. -/
def askedBy (calls : List Call) : List (Spec Float) := calls.flatMap fun call => call.asked.1

/-! ## What a catalogue holds -/

/-- A specification that calls come to: it has the one window there is, and its bank can be
designed. -/
structure Plain (spec : Spec Float) : Prop where
  shape_eq : spec.shape = Spec.kaiserShape
  fits : spec.bankFault? = none

/-- The entry is what designing the bank for the specification on the spot would give. -/
def Serves (spec : Spec Float) (entry : Entry) : Prop :=
  entry.key = spec.key ∧ entry.bank = Bank.ofSpec spec

/-- Entries are numbered, have different keys and come from specifications of calls. -/
structure Tidy (c : Catalogue) : Prop where
  serial_eq : ∀ i (entry : Entry), c.entries[i]? = some entry → entry.serial = i
  nodup : (c.entries.toList.map Entry.key).Nodup
  designed : ∀ entry ∈ c.entries, ∃ spec, Plain spec ∧ Serves spec entry

/-- A catalogue has come from another one by the specifications in a list. -/
structure Grows (specs : List (Spec Float)) (c c' : Catalogue) : Prop where
  keeps : c.entries.toList <+: c'.entries.toList
  contains_iff : ∀ key,
    c'.contains key = true ↔ c.contains key = true ∨ ∃ spec ∈ specs, spec.key = key
  origin : ∀ entry ∈ c'.entries, entry ∈ c.entries ∨ ∃ spec ∈ specs, Serves spec entry

section

variable {c c' c'' : Catalogue} {spec : Spec Float} {specs specs' : List (Spec Float)}
  {entry : Entry} {key : Key}

theorem find?_congr (h : c'.entries = c.entries) (key : Key) : c'.find? key = c.find? key := by
  rw [find?, find?, h]

theorem find?_eq_toList (c : Catalogue) (key : Key) :
    c.find? key = c.entries.toList.find? fun entry => entry.key == key :=
  (Array.find?_toList).symm

theorem Grows.find?_eq (h : Grows specs c c') (hfind : c.find? key = some entry) :
    c'.find? key = some entry := by
  obtain ⟨rest, hrest⟩ := h.keeps
  rw [find?_eq_toList] at hfind
  rw [find?_eq_toList, ← hrest, List.find?_append, hfind]
  rfl

theorem Grows.of_entries_eq (h : c'.entries = c.entries) : Grows [] c c' := by
  have hcontains : ∀ key, c'.contains key = c.contains key := by
    intro key
    rw [contains, contains, find?_congr h]
  exact ⟨h ▸ List.prefix_rfl, by simp [hcontains], fun entry hentry => .inl (h ▸ hentry)⟩

theorem Grows.trans (h : Grows specs c c') (h' : Grows specs' c' c'') :
    Grows (specs ++ specs') c c'' := by
  refine ⟨h.keeps.trans h'.keeps, ?_, ?_⟩
  · intro key
    rw [h'.contains_iff, h.contains_iff]
    simp only [List.mem_append, or_and_right, exists_or, or_assoc]
  · intro entry hentry
    simp only [List.mem_append, or_and_right, exists_or, ← or_assoc]
    exact (h'.origin entry hentry).imp_left (h.origin entry)

theorem Tidy.of_entries_eq (hc : Tidy c) (h : c'.entries = c.entries) : Tidy c' := by
  obtain ⟨entries, journal⟩ := c
  obtain ⟨entries', journal'⟩ := c'
  obtain rfl : entries' = entries := h
  exact ⟨hc.serial_eq, hc.nodup, hc.designed⟩

theorem tidy_empty : Tidy empty := by
  refine ⟨?_, List.nodup_nil, ?_⟩
  · intro i entry h
    cases h
  · intro entry h
    exact absurd h (Array.not_mem_empty entry)

/-! ## One specification -/

/-- The bank that is handed out is there afterwards. -/
theorem find?_obtain (c : Catalogue) (spec : Spec Float) :
    (c.obtain spec).1.find? spec.key = some (c.obtain spec).2 := by
  cases hfind : c.find? spec.key with
  | some entry =>
    obtain ⟨hentries, hentry⟩ := obtain_of_some hfind
    rw [hentry, find?_congr hentries]
    exact hfind
  | none =>
    obtain ⟨hentries, hentry⟩ := obtain_of_none hfind
    have hold : (c.entries.find? fun e => e.key == spec.key) = none := hfind
    rw [hentry, find?, hentries, Array.find?_push, hold]
    simp

theorem grows_obtain (c : Catalogue) (spec : Spec Float) : Grows [spec] c (c.obtain spec).1 := by
  cases hfind : c.find? spec.key with
  | some entry =>
    obtain ⟨hentries, -⟩ := obtain_of_some hfind
    have hgrows := Grows.of_entries_eq hentries
    refine ⟨hgrows.keeps, ?_, fun e he => (hgrows.origin e he).imp_right (by simp)⟩
    intro key
    rw [hgrows.contains_iff]
    have hcontained : c.contains spec.key = true := by rw [contains, hfind]; rfl
    constructor
    · rintro (h | ⟨_, h, -⟩)
      · exact .inl h
      · cases h
    · rintro (h | ⟨_, h, rfl⟩)
      · exact .inl h
      · rw [List.mem_singleton.mp h]
        exact .inl hcontained
  | none =>
    obtain ⟨hentries, -⟩ := obtain_of_none hfind
    refine ⟨?_, ?_, ?_⟩
    · rw [hentries, Array.toList_push]
      exact List.prefix_append _ _
    · intro key
      rw [contains, contains, find?, find?, hentries, Array.find?_push, Option.isSome_or,
        Bool.or_eq_true]
      refine or_congr_right ?_
      by_cases hkey : spec.key = key
      · simp [hkey]
      · simp [hkey]
    · intro e he
      exact (mem_obtain he).imp_right fun h => ⟨spec, List.mem_singleton_self spec, h⟩

theorem Tidy.obtain (hc : Tidy c) (hspec : Plain spec) : Tidy (c.obtain spec).1 := by
  cases hfind : c.find? spec.key with
  | some entry => exact hc.of_entries_eq (obtain_of_some hfind).1
  | none =>
    have hentries := (obtain_of_none hfind).1
    refine ⟨?_, ?_, ?_⟩
    · intro i entry h
      rw [hentries, Array.getElem?_push] at h
      split at h
      · rename_i hlast
        cases h
        exact hlast.symm
      · exact hc.serial_eq i entry h
    · -- The new key is none of the old ones, or it would have been found.
      have hnew : ∀ entry ∈ c.entries.toList, entry.key ≠ spec.key := by
        rw [find?_eq_toList, List.find?_eq_none] at hfind
        intro entry hentry hkey
        exact hfind entry hentry (beq_iff_eq.mpr hkey)
      rw [hentries, Array.toList_push, List.map_append, List.map_singleton, List.nodup_append]
      refine ⟨hc.nodup, List.nodup_singleton _, ?_⟩
      rintro _ hold _ hlast rfl
      obtain ⟨entry, hentry, hkey⟩ := List.mem_map.mp hold
      exact hnew entry hentry (hkey.trans (List.mem_singleton.mp hlast))
    · intro entry hentry
      rcases mem_obtain hentry with hold | hserves
      · exact hc.designed entry hold
      · exact ⟨spec, hspec, hserves⟩

/-- Whoever asked for the key first, the bank is the one for the specification. -/
theorem Tidy.serves_obtain (hc : Tidy c) (hspec : Plain spec) :
    Serves spec (c.obtain spec).2 := by
  obtain ⟨hentry, hkey⟩ := find?_eq_some (find?_obtain c spec)
  obtain ⟨other, hother, hkey', hbank⟩ := (hc.obtain hspec).designed _ hentry
  refine ⟨hkey, hbank.trans (Bank.ofSpec_eq (hkey'.symm.trans hkey) ?_)⟩
  rw [hother.shape_eq, hspec.shape_eq]

/-- What has no bank that fits has none in the catalogue either. -/
theorem Tidy.find?_of_fault (hc : Tidy c) {e : BankFault} (h : spec.bankFault? = some e) :
    c.find? spec.key = none := by
  cases hfind : c.find? spec.key with
  | none => rfl
  | some entry =>
    obtain ⟨hentry, hkey⟩ := find?_eq_some hfind
    obtain ⟨other, hother, hkey', -⟩ := hc.designed entry hentry
    have hfault := Spec.bankFault?_eq (hkey.symm.trans hkey')
    rw [h, hother.fits] at hfault
    cases hfault

/-! ## Several specifications -/

/-- Hands out the banks for specifications in order. -/
def obtainAll (c : Catalogue) : List (Spec Float) → Catalogue × List Entry
  | [] => (c, [])
  | spec :: specs =>
    (((c.obtain spec).1.obtainAll specs).1,
      (c.obtain spec).2 :: ((c.obtain spec).1.obtainAll specs).2)

theorem grows_obtainAll (specs : List (Spec Float)) :
    ∀ c : Catalogue, Grows specs c (c.obtainAll specs).1 := by
  induction specs with
  | nil => intro c; exact Grows.of_entries_eq rfl
  | cons spec specs ih => intro c; exact (grows_obtain c spec).trans (ih _)

theorem Tidy.obtainAll (hc : Tidy c) (hspecs : ∀ spec ∈ specs, Plain spec) :
    Tidy (c.obtainAll specs).1 := by
  induction specs generalizing c with
  | nil => exact hc
  | cons spec specs ih =>
    obtain ⟨hspec, hspecs⟩ := List.forall_mem_cons.mp hspecs
    exact ih (hc.obtain hspec) hspecs

/-- What is handed out first is still there after the rest. -/
theorem Tidy.serves_obtainAll (hc : Tidy c) (hspecs : ∀ spec ∈ specs, Plain spec) :
    List.Forall₂ (fun spec entry =>
        Serves spec entry ∧ (c.obtainAll specs).1.find? spec.key = some entry)
      specs (c.obtainAll specs).2 := by
  induction specs generalizing c with
  | nil => exact .nil
  | cons spec specs ih =>
    obtain ⟨hspec, hspecs⟩ := List.forall_mem_cons.mp hspecs
    refine .cons ⟨hc.serves_obtain hspec, ?_⟩ (ih (hc.obtain hspec) hspecs)
    exact (grows_obtainAll specs _).find?_eq (find?_obtain c spec)

/-! ## One call -/

/-- The ways in which a call comes to its specifications and its fault. -/
inductive Call.Asks : Call → List (Spec Float) → Option CallFault → Prop where
  | refused {clock sample passband e} (h : Spec.ofPatterns clock sample passband = .error e) :
    Asks (.design clock sample passband) [] (some (.spec e))
  | unfit {clock sample passband spec e} (h : Spec.ofPatterns clock sample passband = .ok spec)
    (hfault : spec.bankFault? = some e) : Asks (.design clock sample passband) [] (some (.bank e))
  | fit {clock sample passband spec} (h : Spec.ofPatterns clock sample passband = .ok spec)
    (hfits : spec.bankFault? = none) : Asks (.design clock sample passband) [spec] none
  | unchecked {clock sample passband e} (h : Spec.checked clock sample passband = .error e) :
    Asks (.single clock sample passband) [] (some (.spec e))
  | checked {clock sample passband spec} (h : Spec.checked clock sample passband = .ok spec) :
    Asks (.single clock sample passband) [spec] none
  | unplanned {clock sample e} (h : Plan.ofRates clock sample = .error e) :
    Asks (.double clock sample) [] (some (.spec (.rates e)))
  | noFirst {clock sample p e} (h : Plan.ofRates clock sample = .ok p)
    (hfirst : Spec.checked p.clock p.between p.passband = .error e) :
    Asks (.double clock sample) [] (some (.spec e))
  | noSecond {clock sample p first e} (h : Plan.ofRates clock sample = .ok p)
    (hfirst : Spec.checked p.clock p.between p.passband = .ok first)
    (hsecond : Spec.checked p.between p.sample p.passband = .error e) :
    Asks (.double clock sample) [first] (some (.spec e))
  | both {clock sample p first second} (h : Plan.ofRates clock sample = .ok p)
    (hfirst : Spec.checked p.clock p.between p.passband = .ok first)
    (hsecond : Spec.checked p.between p.sample p.passband = .ok second) :
    Asks (.double clock sample) [first, second] none

theorem Call.asks_asked (call : Call) : call.Asks call.asked.1 call.asked.2 := by
  unfold asked
  cases call with
  | design clock sample passband =>
    dsimp only
    cases hspec : Spec.ofPatterns clock sample passband with
    | error e => exact .refused hspec
    | ok spec =>
      dsimp only
      cases hfault : spec.bankFault? with
      | some e => exact .unfit hspec hfault
      | none => exact .fit hspec hfault
  | single clock sample passband =>
    dsimp only
    cases hspec : Spec.checked clock sample passband with
    | error e => exact .unchecked hspec
    | ok spec => exact .checked hspec
  | double clock sample =>
    dsimp only
    cases hplan : Plan.ofRates clock sample with
    | error e => exact .unplanned hplan
    | ok p =>
      dsimp only
      cases hfirst : Spec.checked p.clock p.between p.passband with
      | error e => exact .noFirst hplan hfirst
      | ok first =>
        dsimp only
        cases hsecond : Spec.checked p.between p.sample p.passband with
        | error e => exact .noSecond hplan hfirst hsecond
        | ok second => exact .both hplan hfirst hsecond

theorem Plain.of_checked {clock sample passband : Float}
    (h : Spec.checked clock sample passband = .ok spec) : Plain spec :=
  ⟨Spec.shape_of_checked h, Spec.bankFault?_of_checked h⟩

theorem plain_of_asked (call : Call) : ∀ spec ∈ call.asked.1, Plain spec := by
  rcases hasked : call.asked with ⟨asked, fault⟩
  have hasks := call.asks_asked
  rw [hasked] at hasks
  dsimp only at hasks ⊢
  cases hasks with
  | refused | unfit | unchecked | unplanned | noFirst => exact nofun
  | fit hspec hfits => simp [(⟨Spec.shape_of_ofRatio hspec, hfits⟩ : Plain _)]
  | checked hspec => simp [Plain.of_checked hspec]
  | noSecond _ hfirst _ => simp [Plain.of_checked hfirst]
  | both _ hfirst hsecond => simp [Plain.of_checked hfirst, Plain.of_checked hsecond]

/-- A call hands out the banks for the specifications that it comes to, up to its fault. -/
theorem Tidy.perform_eq (hc : Tidy c) (call : Call) :
    (c.perform call).1.entries = (c.obtainAll call.asked.1).1.entries ∧
      (c.perform call).2 = match call.asked.2 with
        | some e => .error e
        | none => .ok (c.obtainAll call.asked.1).2 := by
  rcases hasked : call.asked with ⟨asked, fault⟩
  have hasks := call.asks_asked
  rw [hasked] at hasks
  unfold perform
  cases hasks with
  | refused h =>
    dsimp only
    rw [h]
    exact ⟨rfl, rfl⟩
  | @unfit _ _ _ spec e h hfault =>
    obtain ⟨hentries, herror⟩ := design_of_fault (hc.find?_of_fault hfault) hfault
    rcases hdesign : c.design spec with ⟨c', answer⟩
    rw [hdesign] at hentries herror
    obtain rfl : answer = .error e := herror
    dsimp only
    rw [h]
    dsimp only
    rw [hdesign]
    exact ⟨hentries, rfl⟩
  | fit h hfits =>
    dsimp only
    rw [h]
    dsimp only
    rw [design_of_fits hfits]
    exact ⟨rfl, rfl⟩
  | unchecked h =>
    dsimp only
    rw [c.request_error h]
    exact ⟨rfl, rfl⟩
  | checked h =>
    dsimp only
    rw [c.request_ok h]
    exact ⟨rfl, rfl⟩
  | unplanned h =>
    dsimp only
    rw [h]
    exact ⟨rfl, rfl⟩
  | noFirst h hfirst =>
    dsimp only
    rw [h]
    dsimp only
    rw [Plan.request_of_first_error c hfirst]
    exact ⟨rfl, rfl⟩
  | noSecond h hfirst hsecond =>
    dsimp only
    rw [h]
    dsimp only
    rw [Plan.request_of_second_error c hfirst hsecond]
    exact ⟨rfl, rfl⟩
  | both h hfirst hsecond =>
    dsimp only
    rw [h]
    dsimp only
    rw [Plan.request_of_ok c hfirst hsecond]
    exact ⟨rfl, rfl⟩

theorem Tidy.perform (hc : Tidy c) (call : Call) : Tidy (c.perform call).1 :=
  (hc.obtainAll (plain_of_asked call)).of_entries_eq (hc.perform_eq call).1

theorem Tidy.grows_perform (hc : Tidy c) (call : Call) :
    Grows call.asked.1 c (c.perform call).1 := by
  have hgrows := (grows_obtainAll call.asked.1 c).trans (.of_entries_eq (hc.perform_eq call).1)
  rwa [List.append_nil] at hgrows

theorem Tidy.serves_perform (hc : Tidy c) {call : Call} {entries : List Entry}
    (h : (c.perform call).2 = .ok entries) :
    List.Forall₂ (fun spec entry =>
        Serves spec entry ∧ (c.perform call).1.find? spec.key = some entry)
      call.asked.1 entries := by
  obtain ⟨hentries, hanswer⟩ := hc.perform_eq call
  rw [h] at hanswer
  cases hfault : call.asked.2 with
  | some e =>
    rw [hfault] at hanswer
    cases hanswer
  | none =>
    rw [hfault] at hanswer
    cases hanswer
    refine (hc.serves_obtainAll (plain_of_asked call)).imp fun spec entry h => ?_
    rwa [find?_congr hentries]

/-! ## Many calls -/

theorem Tidy.after (hc : Tidy c) (calls : List Call) : Tidy (c.after calls) := by
  induction calls generalizing c with
  | nil => exact hc
  | cons call calls ih => exact ih (hc.perform call)

theorem Tidy.grows_after (hc : Tidy c) (calls : List Call) :
    Grows (askedBy calls) c (c.after calls) := by
  induction calls generalizing c with
  | nil => exact .of_entries_eq rfl
  | cons call calls ih => exact (hc.grows_perform call).trans (ih (hc.perform call))

theorem Tidy.find?_of_mem (hc : Tidy c) {call : Call} {entries : List Entry}
    (h : (c.perform call).2 = .ok entries) (hentry : entry ∈ entries) :
    (c.perform call).1.find? entry.key = some entry := by
  obtain ⟨i, hi, rfl⟩ := List.mem_iff_getElem.mp hentry
  obtain ⟨hlength, hall⟩ := List.forall₂_iff_get.mp (hc.serves_perform h)
  obtain ⟨⟨hkey, -⟩, hfind⟩ := hall i (hlength ▸ hi) hi
  rw [← hkey] at hfind
  exact hfind

/-- Whatever is handed out is still there in the end. -/
theorem Tidy.find?_of_handed (hc : Tidy c) (calls : List Call) :
    ∀ entry ∈ c.handed calls, (c.after calls).find? entry.key = some entry := by
  induction calls generalizing c with
  | nil =>
    intro entry hentry
    exact absurd hentry List.not_mem_nil
  | cons call calls ih =>
    intro entry hentry
    rcases List.mem_append.mp hentry with hnow | hlater
    · have hkept := (hc.perform call).grows_after calls
      cases hanswer : (c.perform call).2 with
      | error e =>
        rw [hanswer] at hnow
        exact absurd hnow List.not_mem_nil
      | ok entries =>
        rw [hanswer] at hnow
        exact hkept.find?_eq (hc.find?_of_mem hanswer hnow)
    · exact ih (hc.perform call) entry hlater

/-- Different entries have different numbers. -/
theorem Tidy.eq_of_serial_eq (hc : Tidy c) {entry' : Entry} (h : entry ∈ c.entries)
    (h' : entry' ∈ c.entries) (hserial : entry.serial = entry'.serial) : entry = entry' := by
  obtain ⟨i, hi⟩ := Array.mem_iff_getElem?.mp h
  obtain ⟨j, hj⟩ := Array.mem_iff_getElem?.mp h'
  rw [hc.serial_eq i entry hi, hc.serial_eq j entry' hj] at hserial
  rw [hserial, hj] at hi
  exact (Option.some.inj hi).symm

theorem Tidy.size_eq (hc : Tidy c) {keys : List Key}
    (h : ∀ key, c.contains key = true ↔ key ∈ keys) : c.size = keys.dedup.length := by
  have hmem : ∀ key, key ∈ c.entries.toList.map Entry.key ↔ key ∈ keys.dedup := by
    intro key
    rw [List.mem_dedup, ← h, contains, find?_eq_toList, List.find?_isSome, List.mem_map]
    simp
  have hperm := (List.perm_ext_iff_of_nodup hc.nodup keys.nodup_dedup).mpr hmem
  rw [← hperm.length_eq, List.length_map, Array.length_toList]
  rfl

end

/-! ## Converters -/

/-- Converters are what the calls for them make: they run on the banks that these hand out. -/
structure ConvertersRun (c : Catalogue) : Prop where
  single : ∀ clock sample passband,
    (PolyphaseConverter.withCatalogue c clock sample passband).1 =
        (c.perform (.single clock sample passband)).1 ∧
      ∀ s, (PolyphaseConverter.withCatalogue c clock sample passband).2 = .ok s ↔
        ∃ entry, (c.perform (.single clock sample passband)).2 = .ok [entry] ∧
          s = .ofBank entry.bank clock sample
  double : ∀ clock sample,
    (TwoStageConverter.withCatalogue c clock sample).1 = (c.perform (.double clock sample)).1 ∧
      ∀ s, (TwoStageConverter.withCatalogue c clock sample).2 = .ok s ↔
        ∃ first second, (c.perform (.double clock sample)).2 = .ok [first, second] ∧
          s = ⟨.ofBank first.bank clock (Plan.rateBetween clock sample),
            .ofBank second.bank (Plan.rateBetween clock sample) sample⟩

theorem converters_run (c : Catalogue) : ConvertersRun c where
  single clock sample passband := by
    unfold perform
    dsimp only
    rcases hrequest : c.request clock sample passband with ⟨c', e | entry⟩
    · simp [PolyphaseConverter.withCatalogue_eq_error hrequest]
    · simp [PolyphaseConverter.withCatalogue_eq_ok hrequest, eq_comm]
  double clock sample := by
    unfold perform
    dsimp only
    cases hrates : checkRates clock sample with
    | error e =>
      have hplan := Plan.ofRates_eq_error hrates
      simp [hplan, TwoStageConverter.withCatalogue_of_refused hplan]
    | ok _ =>
      have hplan := Plan.ofRates_eq_ok hrates
      rw [hplan]
      dsimp only
      rcases hrequest : Plan.request _ c with ⟨c', e | ⟨first, second⟩⟩
      · simp [TwoStageConverter.withCatalogue_eq_error hplan hrequest]
      · simp [TwoStageConverter.withCatalogue_eq_ok hplan hrequest, eq_comm,
          TwoStageConverter.ofBanks]

/-! ## Failures -/

theorem Call.asked_of_fault {call : Call} {e : CallFault} (h : call.asked.2 = some e) :
    call.asked.1 = [] ∨ ∃ clock sample first, call = .double clock sample ∧
      Plan.firstSpec clock sample = .ok first ∧ call.asked.1 = [first] := by
  rcases hasked : call.asked with ⟨asked, fault⟩
  have hasks := call.asks_asked
  rw [hasked] at h hasks
  cases hasks with
  | refused | unfit | unchecked | unplanned | noFirst => exact .inl rfl
  | fit | checked | both => cases h
  | noSecond hplan hfirst _ =>
    exact .inr ⟨_, _, _, rfl, (Plan.firstSpec_of_ok hplan).trans hfirst, rfl⟩

theorem Tidy.error_iff {c : Catalogue} (hc : Tidy c) (call : Call) (e : CallFault) :
    (c.perform call).2 = .error e ↔ call.asked.2 = some e := by
  rw [(hc.perform_eq call).2]
  cases call.asked.2 <;> simp

/-- What a call that fails has published all the same: nothing, or the bank for the first of two
stages, complete. -/
theorem Tidy.entries_of_error {c : Catalogue} (hc : Tidy c) {call : Call} {e : CallFault}
    (h : (c.perform call).2 = .error e) :
    (c.perform call).1.entries = c.entries ∨
      ∃ clock sample first, call = .double clock sample ∧
        Plan.firstSpec clock sample = .ok first ∧
        (c.perform call).1.entries = (c.obtain first).1.entries := by
  rw [(hc.perform_eq call).1]
  rcases Call.asked_of_fault ((hc.error_iff call e).mp h) with
    hnone | ⟨clock, sample, first, hcall, hfirst, hone⟩
  · rw [hnone]
    exact .inl rfl
  · rw [hone]
    exact .inr ⟨clock, sample, first, hcall, hfirst, rfl⟩

/-- Whatever calls a catalogue has been through and however many of them failed, the next call, as
its arguments have it, fails or hands out the banks that its specifications would be given on the
spot. Equal keys stand for the same entry, and an entry is there for good. The catalogue contains
the keys of all specifications that the calls came to and no others. A converter runs on the banks
that are handed out for it, and a call that fails publishes at most the bank for the first of two
stages. -/
theorem shares_designs (calls later : List Call) :
    let c := empty.after calls
    (∀ call, (∀ e, (c.perform call).2 = .error e ↔ call.asked.2 = some e) ∧
      ∀ entries, (c.perform call).2 = .ok entries → List.Forall₂ Serves call.asked.1 entries) ∧
    (∀ entry ∈ empty.handed calls, ∀ entry' ∈ empty.handed calls,
      (entry.key = entry'.key ↔ entry.serial = entry'.serial) ∧
      (entry.key = entry'.key → entry = entry')) ∧
    (c.entries.toList <+: (c.after later).entries.toList ∧
      ∀ key entry, c.find? key = some entry → (c.after later).find? key = some entry) ∧
    ((∀ key, c.contains key = true ↔ key ∈ (askedBy calls).map Spec.key) ∧
      c.size = ((askedBy calls).map Spec.key).dedup.length) ∧
    ConvertersRun c ∧
    ∀ call e, (c.perform call).2 = .error e →
      (c.perform call).1.entries = c.entries ∨
      ∃ clock sample first, call = .double clock sample ∧
        Plan.firstSpec clock sample = .ok first ∧
        (c.perform call).1.entries = (c.obtain first).1.entries := by
  intro c
  have hc : Tidy c := tidy_empty.after calls
  have hlater := hc.grows_after later
  have hcontains : ∀ key, c.contains key = true ↔ key ∈ (askedBy calls).map Spec.key := by
    intro key
    rw [(tidy_empty.grows_after calls).contains_iff, List.mem_map]
    exact or_iff_right (by simp [contains, find?, empty])
  have hfound := tidy_empty.find?_of_handed calls
  refine ⟨?_, ?_, ⟨hlater.keeps, fun key entry h => hlater.find?_eq h⟩,
    ⟨hcontains, hc.size_eq hcontains⟩, converters_run c, fun call e h => hc.entries_of_error h⟩
  · intro call
    exact ⟨hc.error_iff call, fun entries h => (hc.serves_perform h).imp fun _ _ h => h.1⟩
  · intro entry hentry entry' hentry'
    have heq : entry.key = entry'.key → entry = entry' := by
      intro hkey
      have hfind := hfound entry hentry
      rw [hkey, hfound entry' hentry'] at hfind
      exact (Option.some.inj hfind).symm
    refine ⟨⟨fun hkey => by rw [heq hkey], fun hserial => ?_⟩, heq⟩
    rw [hc.eq_of_serial_eq (find?_eq_some (hfound entry hentry)).1
      (find?_eq_some (hfound entry' hentry')).1 hserial]

/-- Two converters from the clock of a PAL machine to 44.1 kHz share a bank. -/
theorem shares_designs_pal :
    let call := Call.single 985248.0 44100.0 20000.0
    (empty.after [call, call]).size = 1 := by
  intro call
  have hrates : checkRates (985248.0 : Float) 44100.0 = .ok () := by decide
  have hband : (0.0 : Float) < 20000.0 ∧ (20000.0 : Float) < 44100.0 / 2.0 := by decide
  obtain ⟨spec, hspec⟩ :=
    (Spec.checked_eq_ok_iff hrates hband (by decide +kernel)).mpr (by decide +kernel)
  have hasked : call.asked = ([spec], none) := by
    unfold call Call.asked
    dsimp only
    rw [hspec]
  obtain ⟨-, -, -, ⟨-, hsize⟩, -⟩ := shares_designs [call, call] []
  rw [hsize]
  simp [askedBy, hasked]

end Catalogue

end SignalPath
