import SignalPath.Proofs.Rate.Refusal

/-!
# What a catalogue hands out

Catalogues only grow by what they are asked for, so that every entry is the bank of a specification
with the key of the entry. A key tells the dimensions of its specification, and with them those of
the bank, whoever asked for it first.
-/

namespace SignalPath.Catalogue

/-- The catalogues that a program comes to. -/
inductive Reached : Catalogue → Prop
  | empty : Reached empty
  | obtain {c : Catalogue} (spec : Spec Float) (h : Reached c) : Reached (c.obtain spec).1
  | design {c : Catalogue} (spec : Spec Float) (h : Reached c) : Reached (c.design spec).1

variable {c : Catalogue} {spec : Spec Float} {entry : Entry}

theorem find?_eq_some {key : Key} (h : c.find? key = some entry) :
    entry ∈ c.entries ∧ entry.key = key := by
  refine ⟨Array.mem_of_find?_eq_some h, ?_⟩
  have hkey := Array.find?_some h
  exact beq_iff_eq.mp hkey

theorem obtain_of_some (h : c.find? spec.key = some entry) :
    (c.obtain spec).1.entries = c.entries ∧ (c.obtain spec).2 = entry := by
  rw [Catalogue.obtain, h]
  exact ⟨rfl, rfl⟩

theorem obtain_of_none (h : c.find? spec.key = none) :
    (c.obtain spec).1.entries = c.entries.push ⟨spec.key, c.size, Bank.ofSpec spec⟩ ∧
      (c.obtain spec).2 = ⟨spec.key, c.size, Bank.ofSpec spec⟩ := by
  rw [Catalogue.obtain, h]
  exact ⟨rfl, rfl⟩

/-- The only entry that a request can add is the one for its specification. -/
theorem mem_obtain (h : entry ∈ (c.obtain spec).1.entries) :
    entry ∈ c.entries ∨ entry.key = spec.key ∧ entry.bank = Bank.ofSpec spec := by
  cases hfind : c.find? spec.key with
  | some found =>
    rw [(obtain_of_some hfind).1] at h
    exact .inl h
  | none =>
    rw [(obtain_of_none hfind).1] at h
    rcases Array.mem_push.mp h with hold | rfl
    · exact .inl hold
    · exact .inr ⟨rfl, rfl⟩

theorem design_of_fits (h : spec.bankFault? = none) :
    c.design spec = ((c.obtain spec).1, .ok (c.obtain spec).2) := by
  unfold Catalogue.design
  rw [h]
  cases c.find? spec.key <;> rfl

theorem design_of_some (h : c.find? spec.key = some entry) :
    c.design spec = ((c.obtain spec).1, .ok (c.obtain spec).2) := by
  unfold Catalogue.design
  rw [h]

/-- The bank does not fit, and there is none yet. -/
theorem design_of_fault {e : BankFault} (hfind : c.find? spec.key = none)
    (h : spec.bankFault? = some e) :
    (c.design spec).1.entries = c.entries ∧ (c.design spec).2 = .error e := by
  unfold Catalogue.design
  rw [hfind, h]
  exact ⟨rfl, rfl⟩

theorem mem_design (h : entry ∈ (c.design spec).1.entries) :
    entry ∈ c.entries ∨ entry.key = spec.key ∧ entry.bank = Bank.ofSpec spec := by
  cases hfault : spec.bankFault? with
  | none =>
    rw [design_of_fits hfault] at h
    exact mem_obtain h
  | some e =>
    cases hfind : c.find? spec.key with
    | some found =>
      rw [design_of_some hfind] at h
      exact mem_obtain h
    | none =>
      rw [(design_of_fault hfind hfault).1] at h
      exact .inl h

/-- Every published bank was designed for a specification with its key. -/
theorem Reached.designed (h : Reached c) :
    ∀ entry ∈ c.entries, ∃ spec : Spec Float, entry.key = spec.key ∧
      entry.bank = Bank.ofSpec spec := by
  induction h with
  | empty =>
    intro entry hentry
    exact absurd hentry (Array.not_mem_empty entry)
  | obtain spec _ ih =>
    intro entry hentry
    rcases mem_obtain hentry with hold | hnew
    · exact ih entry hold
    · exact ⟨spec, hnew⟩
  | design spec _ ih =>
    intro entry hentry
    rcases mem_design hentry with hold | hnew
    · exact ih entry hold
    · exact ⟨spec, hnew⟩

/-- The bank for a specification has its dimensions. -/
theorem Reached.bank_dimensions (h : Reached c) (spec : Spec Float) :
    (c.obtain spec).2.bank.length = spec.length ∧ (c.obtain spec).2.bank.phases = spec.phases := by
  cases hfind : c.find? spec.key with
  | none =>
    rw [(obtain_of_none hfind).2]
    exact ⟨rfl, rfl⟩
  | some entry =>
    obtain ⟨hentry, hkey⟩ := find?_eq_some hfind
    obtain ⟨other, hother, hbank⟩ := h.designed entry hentry
    rw [hkey, Spec.key, Spec.key, Key.mk.injEq] at hother
    obtain ⟨hlength, hphases, -⟩ := hother
    rw [(obtain_of_some hfind).2, hbank]
    exact ⟨hlength.symm, hphases.symm⟩

end SignalPath.Catalogue
