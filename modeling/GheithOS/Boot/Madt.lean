import GheithOS.Boot.Config

/-!
# GheithOS.Boot.Madt — the loop over the processor table

The loop of `configInit` goes to the next entry before it looks at one.  So, in a table of entries
`e₀, …, eₙ`, it looks at `e₁, …, eₙ` and then at the bytes behind the table (`entryLoop_spec`): the
first entry is lost, and what lies behind the table is taken for an entry.  With `2³¹` bytes of
entries or more, the count of the bytes is negative and it looks at none.

An `Entry` is a list of bytes that carries what makes it an entry, and a `Madt` a memory with a
table at an address.
-/

namespace GheithOS.Boot

open Lib Files

/-- An entry of the table. -/
structure Entry where
  bytes : List Byte
  two_le : 2 ≤ bytes.length
  len_eq : (bytes.getD 1 0).toNat = bytes.length
  apic : bytes.getD 0 0 = 0 → bytes.length = 8
  ioapic : bytes.getD 0 0 = 1 → bytes.length = 12

namespace Entry

def field (e : Entry) (i : ℕ) : Byte := e.bytes.getD i 0

/-- What an `APIC_ENTRY` says. -/
def info (e : Entry) : ApicInfo := ⟨e.field 2, e.field 3, word e.field 4⟩

/-- The address in an `IOAPIC_ENTRY`. -/
def address (e : Entry) : ℕ := word e.field 4

end Entry

/-- The bytes of the entries, one after the other. -/
def area (es : List Entry) : List Byte := es.flatMap Entry.bytes

/-- The processors of the entries that have a number other than 0. -/
def procs (es : List Entry) : List ApicInfo :=
  (es.filter fun e => e.field 0 = 0 ∧ e.field 2 ≠ 0).map Entry.info

def lastIOAPIC (es : List Entry) : Option Entry := (es.filter fun e => e.field 0 = 1).getLast?

/-- The entries lie from `p` on. -/
def Tiled (mem : ℕ → Byte) (p : ℕ) (es : List Entry) : Prop :=
  window (field mem p) 0 (area es).length = area es

/-- A memory with a table at `addr`. -/
structure Madt where
  mem : ℕ → Byte
  addr : ℕ
  entries : List Entry
  length_lt : sizeofMADT + (area entries).length < 2 ^ 32
  length_eq : word (field mem addr) 4 = sizeofMADT + (area entries).length
  tiled : Tiled mem (addr + sizeofMADT) entries

/-- The addresses of the table. -/
def Madt.Inside (t : Madt) (a : ℕ) : Prop :=
  ∃ i < sizeofMADT + (area t.entries).length, a = (t.addr + i) % 2 ^ 32

/-- The loop has read the table, the whole table and nothing else. -/
structure Parsed (t : Madt) (s : Scan) : Prop where
  inside : ∀ a ∈ s.examined, t.Inside a
  infos : window s.config.apicInfo 0 s.config.nOtherProcs = procs t.entries
  fits : s.config.nOtherProcs ≤ maxProcs
  ioAPIC : ∀ e ∈ lastIOAPIC t.entries, s.config.ioAPIC = e.address

/-! ### Entries in memory -/

variable {mem : ℕ → Byte} {p fuel : ℕ} {e : Entry} {es : List Entry} {s : Scan} {config : Config}

theorem field_add (mem : ℕ → Byte) (p i j : ℕ) : field mem (p + i) j = field mem p (i + j) := by
  rw [field, field, Nat.add_assoc]

theorem field_mod (mem : ℕ → Byte) (p : ℕ) : field mem (p % 2 ^ 32) = field mem p := by
  funext i
  rw [field, field, Nat.mod_add_mod]

theorem length_area_cons (e : Entry) (es : List Entry) :
    (area (e :: es)).length = e.bytes.length + (area es).length := by
  rw [area, List.flatMap_cons, List.length_append]
  rfl

theorem tiled_cons (h : Tiled mem p (e :: es)) :
    (∀ i < e.bytes.length, field mem p i = e.field i) ∧ Tiled mem (p + e.bytes.length) es := by
  rw [Tiled, length_area_cons, ← window_append, Nat.zero_add] at h
  obtain ⟨hfirst, hrest⟩ := List.append_inj h (by rw [length_window])
  refine ⟨fun i hi => ?_, ?_⟩
  · have hget := getD_window (field mem p) 0 e.bytes.length i 0
    rw [hfirst, if_pos hi, Nat.zero_add] at hget
    exact hget.symm
  · refine Eq.trans (window_congr fun j _ => ?_) hrest
    rw [Nat.zero_add, field_add]

/-- Bytes that agree as far as the loop looks at them are recorded in one way. -/
theorem record_congr {f g : ℕ → Byte} (h0 : f 0 = g 0) (happ : f 0 = 0 → ∀ i < 8, f i = g i)
    (hio : f 0 = 1 → ∀ i < 12, f i = g i) (c : Config) : c.record f = c.record g := by
  have hword : (∀ i < 8, f i = g i) → word f 4 = word g 4 := fun h => by
    rw [word, word, window_congr fun j hj => h (4 + j) (by omega)]
  rw [Config.record, Config.record, ← h0]
  by_cases hzero : f 0 = 0
  · have h := happ hzero
    rw [if_pos hzero, if_pos hzero, h 2 (by omega), h 3 (by omega), hword h]
  · rw [if_neg hzero, if_neg hzero]
    by_cases hone : f 0 = 1
    · rw [if_pos hone, if_pos hone, hword fun i hi => hio hone i (by omega)]
    · rw [if_neg hone, if_neg hone]

theorem record_entry (h : ∀ i < e.bytes.length, field mem p i = e.field i) (c : Config) :
    c.record (field mem p) = c.record e.field := by
  have h0 : field mem p 0 = e.field 0 := h 0 (by have := e.two_le; omega)
  refine record_congr h0 (fun hzero i hi => h i ?_) (fun hone i hi => h i ?_) c
  · rwa [e.apic (h0.symm.trans hzero)]
  · rwa [e.ioapic (h0.symm.trans hone)]

/-! ### The loop -/

@[simp] theorem examine_config (s : Scan) (p i n : ℕ) : (s.examine p i n).config = s.config := rfl

theorem examineEntry_config (s : Scan) (mem : ℕ → Byte) (p : ℕ) :
    (s.examineEntry mem p).config = s.config := by
  rw [Scan.examineEntry]
  split_ifs <;> rfl

theorem mem_examine {a i n : ℕ} (h : a ∈ s.examined) : a ∈ (s.examine p i n).examined :=
  List.mem_append_left _ h

theorem type_examined (s : Scan) (mem : ℕ → Byte) (p : ℕ) :
    p % 2 ^ 32 ∈ (s.examineEntry mem p).examined := by
  have h : p % 2 ^ 32 ∈ (s.examine p 0 1).examined := by simp [Scan.examine]
  rw [Scan.examineEntry]
  split_ifs
  · exact mem_examine h
  · exact mem_examine h
  · exact mem_examine h
  · exact h

theorem entryLoop_done {bytesForEntries : ℤ} (h : ¬ 0 < bytesForEntries) :
    entryLoop mem fuel p bytesForEntries s = some s := by
  cases fuel <;> rw [entryLoop, if_neg h]

theorem entryLoop_mono {bytesForEntries : ℤ} {fuel' : ℕ} {s' : Scan} (hle : fuel ≤ fuel')
    (h : entryLoop mem fuel p bytesForEntries s = some s') :
    entryLoop mem fuel' p bytesForEntries s = some s' := by
  induction fuel generalizing fuel' p bytesForEntries s with
  | zero =>
    by_cases hpos : 0 < bytesForEntries
    · rw [entryLoop, if_pos hpos] at h
      cases h
    · rw [entryLoop_done hpos] at h ⊢
      exact h
  | succ fuel ih =>
    obtain ⟨fuel', rfl⟩ : ∃ n, fuel' = n + 1 := ⟨fuel' - 1, by omega⟩
    rw [entryLoop] at h ⊢
    split_ifs at h ⊢ with hpos
    · exact ih (by omega) h
    · exact h

theorem entryLoop_succ (fuel : ℕ) {bytesForEntries : ℤ} (hpos : 0 < bytesForEntries)
    (hlen : field mem p 1 = e.field 1) :
    ∃ s₁ : Scan, entryLoop mem (fuel + 1) p bytesForEntries s =
        entryLoop mem fuel ((p + e.bytes.length) % 2 ^ 32) (bytesForEntries - e.bytes.length) s₁ ∧
      s₁.config = s.config.record (field mem (p + e.bytes.length)) ∧
      (p + e.bytes.length) % 2 ^ 32 ∈ s₁.examined := by
  have hlength : (field mem p 1).toNat = e.bytes.length := hlen ▸ e.len_eq
  refine ⟨{ (s.examine p 1 1).examineEntry mem ((p + e.bytes.length) % 2 ^ 32) with
      config := s.config.record (field mem (p + e.bytes.length)) }, ?_, rfl, ?_⟩
  · rw [entryLoop, if_pos hpos]
    dsimp only
    rw [hlength, examineEntry_config, examine_config, field_mod]
  · have h := type_examined (s.examine p 1 1) mem ((p + e.bytes.length) % 2 ^ 32)
    rwa [Nat.mod_mod] at h

/-- **The loop**: it records the entries behind the first one, and then what lies behind the
table. -/
theorem entryLoop_spec (h : Tiled mem p (e :: es)) (hfuel : es.length < fuel) :
    ∃ s', entryLoop mem fuel p (area (e :: es)).length s = some s' ∧
      s'.config = (es.foldl (fun c e => c.record e.field) s.config).record
        (field mem (p + (area (e :: es)).length)) ∧
      (p + (area (e :: es)).length) % 2 ^ 32 ∈ s'.examined := by
  induction es generalizing e p fuel s with
  | nil =>
    obtain ⟨fuel, rfl⟩ := Nat.exists_eq_add_of_lt hfuel
    obtain ⟨hbytes, -⟩ := tiled_cons h
    have htwo := e.two_le
    have hlength : (area [e]).length = e.bytes.length := by
      rw [length_area_cons]
      rfl
    obtain ⟨s₁, hloop, hconfig, hexamined⟩ :=
      entryLoop_succ (s := s) fuel (show (0 : ℤ) < (area [e]).length by omega) (hbytes 1 (by omega))
    refine ⟨s₁, ?_, ?_, ?_⟩
    · rw [show [].length + fuel + 1 = fuel + 1 by simp, hloop, hlength, sub_self, entryLoop_done (by omega)]
    · rw [hlength]
      exact hconfig
    · rwa [hlength]
  | cons e' es ih =>
    obtain ⟨fuel, rfl⟩ : ∃ n, fuel = n + 1 := ⟨fuel - 1, by omega⟩
    obtain ⟨hbytes, hrest⟩ := tiled_cons h
    have htwo := e.two_le
    have hlength := length_area_cons e (e' :: es)
    obtain ⟨s₁, hloop, hconfig, -⟩ := entryLoop_succ (s := s) fuel
      (show (0 : ℤ) < (area (e :: e' :: es)).length by omega) (hbytes 1 (by omega))
    have hrest' : Tiled mem ((p + e.bytes.length) % 2 ^ 32) (e' :: es) := by
      rw [Tiled, field_mod]
      exact hrest
    obtain ⟨s', hloop', hconfig', hexamined⟩ := ih (s := s₁) hrest' (by simpa using hfuel)
    refine ⟨s', ?_, ?_, ?_⟩
    · rw [hloop, ← hloop']
      congr 1
      omega
    · rw [hconfig', hconfig, record_entry (tiled_cons hrest).1, List.foldl_cons, hlength]
      congr 1
      funext i
      rw [field, field, Nat.add_assoc, Nat.mod_add_mod]
      congr 2
      omega
    · rw [hlength, ← Nat.add_assoc]
      rwa [Nat.mod_add_mod] at hexamined

/-! ### The table -/

variable {t : Madt}

theorem Madt.bytesForEntries (t : Madt) :
    word (field t.mem t.addr) 4 + 2 ^ 32 - sizeofMADT = (area t.entries).length + 2 ^ 32 := by
  rw [t.length_eq]
  omega

theorem int32_of_lt {n : ℕ} (h : n < 2 ^ 31) : int32 (n + 2 ^ 32) = n := by
  rw [int32, Nat.add_mod_right, Nat.mod_eq_of_lt (by omega), if_pos h]

theorem int32_neg {n : ℕ} (h : 2 ^ 31 ≤ n) (hn : n < 2 ^ 32) : ¬ 0 < int32 (n + 2 ^ 32) := by
  rw [int32, Nat.add_mod_right, Nat.mod_eq_of_lt hn, if_neg (by omega)]
  omega

/-- The address behind the table is none of the table. -/
theorem Madt.not_inside_end (t : Madt) :
    ¬ t.Inside ((t.addr + (sizeofMADT + (area t.entries).length)) % 2 ^ 32) := by
  rintro ⟨i, hi, heq⟩
  have := t.length_lt
  omega

/-- Without a round of the loop, nothing is learnt of the processors. -/
theorem readMADT_idle (fuel : ℕ) (config : Config) (h : t.entries = [] ∨ 2 ^ 31 ≤ (area t.entries).length) :
    ∃ s, readMADT t.mem t.addr fuel config = some s ∧ s.examined = [] ∧ s.config.nOtherProcs = 0 ∧
      s.config.ioAPIC = config.ioAPIC := by
  have hidle : ¬ 0 < int32 (word (field t.mem t.addr) 4 + 2 ^ 32 - sizeofMADT) := by
    rw [t.bytesForEntries]
    rcases h with hnil | hlarge
    · rw [hnil]
      decide
    · exact int32_neg hlarge (Nat.lt_of_le_of_lt (Nat.le_add_left _ _) t.length_lt)
  rw [readMADT, entryLoop_done hidle]
  exact ⟨_, rfl, rfl, rfl, rfl⟩

theorem readMADT_overrun {fuel : ℕ} {s : Scan} (hne : t.entries ≠ [])
    (hsmall : (area t.entries).length < 2 ^ 31) (h : readMADT t.mem t.addr fuel config = some s) :
    (t.addr + (sizeofMADT + (area t.entries).length)) % 2 ^ 32 ∈ s.examined := by
  obtain ⟨s₁, hloop, hs⟩ := Option.bind_eq_some_iff.mp h
  obtain rfl := Option.some.inj hs
  rw [t.bytesForEntries, int32_of_lt hsmall] at hloop
  obtain ⟨e, es, hes⟩ := List.exists_cons_of_ne_nil hne
  have htiled : Tiled t.mem ((t.addr + sizeofMADT) % 2 ^ 32) (e :: es) := by
    rw [Tiled, field_mod, ← hes]
    exact t.tiled
  obtain ⟨s₂, hloop', -, hexamined⟩ :=
    entryLoop_spec htiled (show es.length < fuel + es.length + 1 by omega)
  rw [hes] at hloop ⊢
  obtain rfl := Option.some.inj ((entryLoop_mono (by omega) hloop).symm.trans hloop')
  rwa [Nat.mod_add_mod, Nat.add_assoc] at hexamined

/-- **The processor table.**  The loop reads a table, all of it and nothing else, exactly if it has
no entries, or if it is so large that the loop does not run and has nothing to say: no processor but
the first, and no IOAPIC at another address than the configuration has. -/
theorem madt_parsed_iff (t : Madt) (config : Config) :
    (∃ fuel s, readMADT t.mem t.addr fuel config = some s ∧ Parsed t s) ↔
      t.entries = [] ∨ 2 ^ 31 ≤ (area t.entries).length ∧ procs t.entries = [] ∧
        ∀ e ∈ lastIOAPIC t.entries, config.ioAPIC = e.address := by
  constructor
  · rintro ⟨fuel, s, hread, hparsed⟩
    by_cases hnil : t.entries = []
    · exact .inl hnil
    · by_cases hlarge : 2 ^ 31 ≤ (area t.entries).length
      · obtain ⟨s', hread', -, hcount, hio⟩ := readMADT_idle (t := t) fuel config (.inr hlarge)
        obtain rfl := Option.some.inj (hread'.symm.trans hread)
        have hinfos := hparsed.infos
        rw [hcount, window_zero] at hinfos
        exact .inr ⟨hlarge, hinfos.symm, fun e he => hio.symm.trans (hparsed.ioAPIC e he)⟩
      · have hexamined := readMADT_overrun hnil (by omega) hread
        exact absurd (hparsed.inside _ hexamined) t.not_inside_end
  · intro h
    obtain ⟨s, hread, hexamined, hcount, hio⟩ := readMADT_idle (t := t) 0 config (h.imp_right And.left)
    have hprocs : procs t.entries = [] := h.elim (fun hnil => hnil ▸ rfl) fun h => h.2.1
    refine ⟨0, s, hread, ?_, ?_, ?_, fun e he => hio.trans ?_⟩
    · simp [hexamined]
    · rw [hcount, hprocs, window_zero]
    · omega
    · rcases h with hnil | ⟨-, -, haddress⟩
      · rw [hnil] at he
        cases he
      · exact haddress e he

/-- An `APIC_ENTRY` of a second processor. -/
def secondProc : Entry :=
  ⟨[0, 8, 1, 1, 1, 0, 0, 0], by simp, rfl, fun _ => rfl, fun h => absurd h (by decide)⟩

/-- A table of 52 bytes at `0x8000` with this entry, and zeros behind it. -/
def secondProcTable : Madt where
  mem a := if a = 0x8004 then 52 else if a < 0x802C then 0 else secondProc.bytes.getD (a - 0x802C) 0
  addr := 0x8000
  entries := [secondProc]
  length_lt := by decide
  length_eq := rfl
  tiled := rfl

/-- Its processor is lost, and the byte behind it is examined. -/
theorem madt_first_entry_lost : procs secondProcTable.entries = [⟨1, 1, 1⟩] ∧
    ∃ s, readMADT secondProcTable.mem secondProcTable.addr 1 kConfig = some s ∧ s.config.nOtherProcs = 0 ∧
      0x8034 ∈ s.examined ∧ ¬ secondProcTable.Inside 0x8034 := by
  have hread : (readMADT secondProcTable.mem secondProcTable.addr 1 kConfig).map
      (fun s => s.config.nOtherProcs) = some 0 :=
    by decide
  obtain ⟨s, hs, hcount⟩ := Option.map_eq_some_iff.mp hread
  exact ⟨by decide, s, hs, hcount, readMADT_overrun (by simp [secondProcTable]) (by decide) hs,
    secondProcTable.not_inside_end⟩

end GheithOS.Boot
