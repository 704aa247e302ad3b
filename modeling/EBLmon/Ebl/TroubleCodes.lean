import EBLmon.Ebl.Decode
import Mathlib.Data.List.Sort

/-!
# The trouble codes

`dtc_string` of `src/ebl.cpp`.  It goes through twenty conditions, one for a
bit of the memory dump each, and counts its 8-bit index down at every bit that
is set, also at the one that it answers with.  `ebl_format.txt` has the table of
these bits.

`priorityTable` is the table of the document in the order of priority, with
the names as they are displayed.  `activeCodes` are its codes that are set.
`dtcString_enumerates` says that `dtc_string` reads this list by its index, and
what follows: the end of the list, that no code comes twice, that the index
does not wrap before the condition that answers, and which bits of the memory
dump matter.
-/

namespace EBLmon.Ebl

/-! ## `dtc_string` -/

/-- One `if` of `dtc_string`: the byte of `ebl_mem`, the bit and the name. -/
structure Dtc where
  byte : Fin 256
  mask : UInt8
  name : String
  deriving DecidableEq, Repr

/-- The conditions of `dtc_string` in their order. -/
def dtcTable : List Dtc :=
  [⟨0x12, 0x01, "VSS   "⟩, ⟨0x12, 0x02, "IAT LO"⟩, ⟨0x12, 0x04, "TPS LO"⟩,
    ⟨0x12, 0x08, "TPS HI"⟩, ⟨0x12, 0x10, "CTS LO"⟩, ⟨0x12, 0x20, "CTS HI"⟩,
    ⟨0x12, 0x40, "O2    "⟩, ⟨0x12, 0x80, "DRP   "⟩, ⟨0x13, 0x01, "EST   "⟩,
    ⟨0x13, 0x08, "MAP LO"⟩, ⟨0x13, 0x10, "MAP HI"⟩, ⟨0x13, 0x80, "IAT HI"⟩,
    ⟨0x14, 0x01, "ADU   "⟩, ⟨0x14, 0x02, "FP RLY"⟩, ⟨0x14, 0x04, "VATS  "⟩,
    ⟨0x14, 0x08, "CALPAK"⟩, ⟨0x14, 0x10, "PROM  "⟩, ⟨0x14, 0x20, "O2 RH "⟩,
    ⟨0x14, 0x40, "O2 LN "⟩, ⟨0x14, 0x80, "ESC   "⟩]

/-- One condition, `(ebl_mem[..] & ..) && (dtc_index-- == 0)`: its value, and
the index after it. -/
def Dtc.cond (mem : Vector UInt8 256) (e : Dtc) (dtcIndex : UInt8) :
    Bool × UInt8 :=
  if mem[e.byte] &&& e.mask ≠ 0 then (dtcIndex == 0, dtcIndex - 1)
  else (false, dtcIndex)

/-- The `if` statements of `dtc_string` one after another: what they return,
and the index at the end. -/
def dtcScan (mem : Vector UInt8 256) :
    List Dtc → UInt8 → Option String × UInt8
  | [], dtcIndex => (none, dtcIndex)
  | e :: es, dtcIndex =>
    match e.cond mem dtcIndex with
    | (true, dtcIndex) => (some e.name, dtcIndex)
    | (false, dtcIndex) => dtcScan mem es dtcIndex

/-- `const char *dtc_string(uint8_t dtc_index)` -/
def dtcString (d : Decoder) (dtcIndex : UInt8) : Option String :=
  (dtcScan d.eblMem dtcTable dtcIndex).1

/-! ## The table of the document -/

/-- "Malfunction codes (column 1)" of `ebl_format.txt`, in its order. -/
def formatTable : List Dtc :=
  [⟨0x12, 0x80, "DRP"⟩, ⟨0x12, 0x40, "O2"⟩, ⟨0x12, 0x20, "CTS HI"⟩,
    ⟨0x12, 0x10, "CTS LO"⟩, ⟨0x12, 0x08, "TPS HI"⟩, ⟨0x12, 0x04, "TPS LO"⟩,
    ⟨0x12, 0x02, "IAT LO"⟩, ⟨0x12, 0x01, "VSS"⟩, ⟨0x13, 0x80, "IAT HI"⟩,
    ⟨0x13, 0x10, "MAP HI"⟩, ⟨0x13, 0x08, "MAP LO"⟩, ⟨0x13, 0x01, "EST"⟩,
    ⟨0x14, 0x80, "ESC"⟩, ⟨0x14, 0x40, "O2 LN"⟩, ⟨0x14, 0x20, "O2 RH"⟩,
    ⟨0x14, 0x10, "PROM"⟩, ⟨0x14, 0x08, "CALPAK"⟩, ⟨0x14, 0x04, "VATs"⟩,
    ⟨0x14, 0x02, "FP RLY"⟩, ⟨0x14, 0x01, "ADU"⟩]

namespace Dtc

/-- The order of priority: by byte, then by bit. -/
def Before (e f : Dtc) : Prop :=
  e.byte < f.byte ∨ (e.byte = f.byte ∧ e.mask ≤ f.mask)

instance : DecidableRel Before := fun _ _ =>
  inferInstanceAs (Decidable (_ ∨ _))

/-- The name as it is displayed: in capitals, and six characters wide. -/
def label (e : Dtc) : String :=
  String.ofList ((e.name.toList.map Char.toUpper).rightpad 6 ' ')

/-- The code is set in a memory dump. -/
def Set (mem : Vector UInt8 256) (e : Dtc) : Prop :=
  mem[e.byte] &&& e.mask ≠ 0

instance (mem : Vector UInt8 256) (e : Dtc) : Decidable (e.Set mem) :=
  inferInstanceAs (Decidable (_ ≠ _))

end Dtc

/-- The table of the document in the order of priority. -/
def priorityTable : List Dtc :=
  (formatTable.insertionSort Dtc.Before).map fun e => { e with name := e.label }

/-- The names of the codes that are set. -/
def activeCodes (mem : Vector UInt8 256) : List String :=
  (priorityTable.filter fun e => e.Set mem).map Dtc.name

/-- The conditions of `dtc_string` are the table of the document. -/
theorem dtcTable_eq : dtcTable = priorityTable := by decide

/-! ## The scan -/

section Scan

variable (mem : Vector UInt8 256)

/-- The number of codes that are set. -/
def setCount (es : List Dtc) : ℕ := es.countP fun e => e.Set mem

variable {mem} {e : Dtc}

theorem dtcScan_cons_unset (h : ¬ e.Set mem) (es : List Dtc) (i : UInt8) :
    dtcScan mem (e :: es) i = dtcScan mem es i := by
  have hbit : ¬ mem[e.byte] &&& e.mask ≠ 0 := h
  have hcond : e.cond mem i = (false, i) := if_neg hbit
  rw [dtcScan, hcond]

theorem dtcScan_cons_zero (h : e.Set mem) (es : List Dtc) :
    dtcScan mem (e :: es) 0 = (some e.name, 255) := by
  have hbit : mem[e.byte] &&& e.mask ≠ 0 := h
  have hcond : e.cond mem 0 = (true, 255) := if_pos hbit
  rw [dtcScan, hcond]

theorem dtcScan_cons_pos (h : e.Set mem) (es : List Dtc) {i : UInt8}
    (hi : i ≠ 0) : dtcScan mem (e :: es) i = dtcScan mem es (i - 1) := by
  have hbit : mem[e.byte] &&& e.mask ≠ 0 := h
  have hcond : e.cond mem i = (false, i - 1) := by
    rw [Dtc.cond, if_pos hbit, beq_false_of_ne hi]
  rw [dtcScan, hcond]

/-- An index that is not zero counts down by one. -/
theorem toNat_pred {i : UInt8} (h : i ≠ 0) : i.toNat = (i - 1).toNat + 1 := by
  have hpos : i.toNat ≠ 0 := fun h0 => h (UInt8.toNat_inj.mp h0)
  have hlt := UInt8.toNat_lt i
  rw [UInt8.toNat_sub, show (1 : UInt8).toNat = 1 from rfl]
  omega

/-- The scan reads the list of set codes by its index. -/
theorem dtcScan_fst (mem : Vector UInt8 256) (es : List Dtc) (i : UInt8) :
    (dtcScan mem es i).1
      = ((es.filter fun e => e.Set mem).map Dtc.name)[i.toNat]? := by
  induction es generalizing i with
  | nil => rfl
  | cons e es ih =>
    by_cases hset : e.Set mem
    · rw [List.filter_cons_of_pos (by simpa using hset), List.map_cons]
      by_cases hi : i = 0
      · subst hi
        rw [dtcScan_cons_zero hset]
        rfl
      · rw [dtcScan_cons_pos hset es hi, ih, toNat_pred hi,
          List.getElem?_cons_succ]
    · rw [dtcScan_cons_unset hset, ih,
        List.filter_cons_of_neg (by simpa using hset)]

theorem setCount_cons_set (h : e.Set mem) (es : List Dtc) :
    setCount mem (e :: es) = setCount mem es + 1 :=
  List.countP_cons_of_pos (by simpa using h)

theorem setCount_cons_unset (h : ¬ e.Set mem) (es : List Dtc) :
    setCount mem (e :: es) = setCount mem es :=
  List.countP_cons_of_neg (by simpa using h)

/-- With no more set codes than the index says, every condition is passed, and
the index is smaller by the number of set codes: it has not wrapped. -/
theorem dtcScan_passes {es : List Dtc} {i : UInt8}
    (h : setCount mem es ≤ i.toNat) :
    ∃ j : UInt8, j.toNat = i.toNat - setCount mem es ∧
      dtcScan mem es i = (none, j) := by
  induction es generalizing i with
  | nil => exact ⟨i, rfl, rfl⟩
  | cons e es ih =>
    by_cases hset : e.Set mem
    · rw [setCount_cons_set hset] at h ⊢
      have hi : i ≠ 0 := by
        rintro rfl
        exact absurd h (Nat.not_succ_le_zero _)
      have hpred := toNat_pred hi
      obtain ⟨j, hj, hscan⟩ := ih (i := i - 1) (by omega)
      refine ⟨j, by omega, ?_⟩
      rw [dtcScan_cons_pos hset es hi, hscan]
    · rw [setCount_cons_unset hset] at h ⊢
      rw [dtcScan_cons_unset hset]
      exact ih h

/-- With more set codes than that one of the conditions answers, and its
decrement takes the index from 0 to 255. -/
theorem dtcScan_answers {es : List Dtc} {i : UInt8}
    (h : i.toNat < setCount mem es) :
    ∃ name, dtcScan mem es i = (some name, 255) := by
  induction es generalizing i with
  | nil => exact absurd h (Nat.not_lt_zero _)
  | cons e es ih =>
    by_cases hset : e.Set mem
    · rw [setCount_cons_set hset] at h
      by_cases hi : i = 0
      · subst hi
        exact ⟨e.name, dtcScan_cons_zero hset es⟩
      · have hpred := toNat_pred hi
        rw [dtcScan_cons_pos hset es hi]
        exact ih (by omega)
    · rw [setCount_cons_unset hset] at h
      rw [dtcScan_cons_unset hset]
      exact ih h

/-- Behind conditions that are passed the scan goes on with their index. -/
theorem dtcScan_append {pre : List Dtc} (post : List Dtc) {i j : UInt8}
    (h : dtcScan mem pre i = (none, j)) :
    dtcScan mem (pre ++ post) i = dtcScan mem post j := by
  induction pre generalizing i with
  | nil =>
    rw [dtcScan, Prod.mk.injEq] at h
    rw [List.nil_append, h.2]
  | cons e pre ih =>
    rw [List.cons_append]
    by_cases hset : e.Set mem
    · by_cases hi : i = 0
      · subst hi
        rw [dtcScan_cons_zero hset] at h
        exact absurd (congrArg Prod.fst h) (Option.some_ne_none _)
      · rw [dtcScan_cons_pos hset _ hi] at h ⊢
        exact ih h
    · rw [dtcScan_cons_unset hset] at h ⊢
      exact ih h

/-- The scan depends on the bits of its codes only. -/
theorem dtcScan_congr {mem' : Vector UInt8 256} {es : List Dtc}
    (h : ∀ e ∈ es, e.Set mem' ↔ e.Set mem) (i : UInt8) :
    (dtcScan mem' es i).1 = (dtcScan mem es i).1 := by
  rw [dtcScan_fst, dtcScan_fst]
  congr 2
  apply List.filter_congr
  intro e he
  rw [decide_eq_decide]
  exact h e he

end Scan

/-! ## The bits that matter -/

/-- Two memory dumps agree on the three bytes, apart from the bits `0x02`,
`0x04`, `0x20` and `0x40` of the second one. -/
structure SameCodes (mem mem' : Vector UInt8 256) : Prop where
  byte12 : mem'[0x12] = mem[0x12]
  byte13 : mem'[0x13] &&& (0x99 : UInt8) = mem[0x13] &&& (0x99 : UInt8)
  byte14 : mem'[0x14] = mem[0x14]

/-- Every code of the table lies in the bits that `SameCodes` compares. -/
theorem dtcTable_bits : ∀ e ∈ dtcTable,
    e.byte = 0x12 ∨ e.byte = 0x14 ∨
      (e.byte = 0x13 ∧ 0x99 &&& e.mask = e.mask) := by
  decide

theorem SameCodes.set_iff {mem mem' : Vector UInt8 256}
    (h : SameCodes mem mem') {e : Dtc} (he : e ∈ dtcTable) :
    e.Set mem' ↔ e.Set mem := by
  have hbits := dtcTable_bits e he
  obtain ⟨byte, mask, name⟩ := e
  unfold Dtc.Set
  rcases hbits with rfl | rfl | ⟨rfl, hmask⟩
  · exact iff_of_eq (congrArg (fun b => b &&& mask ≠ 0) h.byte12)
  · exact iff_of_eq (congrArg (fun b => b &&& mask ≠ 0) h.byte14)
  · have hand := congrArg (fun b => b &&& mask ≠ 0) h.byte13
    simp only [UInt8.and_assoc] at hand
    rw [show 0x99 &&& mask = mask from hmask] at hand
    exact iff_of_eq hand

/-! ## The enumeration -/

/-- What `dtc_string` makes of a memory dump. -/
structure Enumerates (d : Decoder) : Prop where
  nth : ∀ i, dtcString d i = (activeCodes d.eblMem)[i.toNat]?
  none_iff : ∀ i, dtcString d i = none ↔
    (activeCodes d.eblMem).length ≤ i.toNat
  nodup : (activeCodes d.eblMem).Nodup
  once : (List.range (activeCodes d.eblMem).length).map
      (fun n => dtcString d (UInt8.ofNat n)) = (activeCodes d.eblMem).map some
  -- the conditions `post` are reached if `pre` has no more set codes than `i`,
  -- and what they read is `i` less the number of these
  index : ∀ i pre post, dtcTable = pre ++ post →
    setCount d.eblMem pre ≤ i.toNat →
    ∃ j : UInt8, j.toNat = i.toNat - setCount d.eblMem pre ∧
      dtcScan d.eblMem pre i = (none, j) ∧
      dtcScan d.eblMem dtcTable i = dtcScan d.eblMem post j
  -- otherwise one of the conditions `pre` has answered, and the index wraps
  -- there, where nothing reads it any more
  wraps : ∀ i pre post, dtcTable = pre ++ post →
    i.toNat < setCount d.eblMem pre →
    ∃ name, dtcScan d.eblMem pre i = (some name, 255)
  bits : ∀ d', SameCodes d.eblMem d'.eblMem →
    ∀ i, dtcString d' i = dtcString d i

theorem dtcString_nth (d : Decoder) (i : UInt8) :
    dtcString d i = (activeCodes d.eblMem)[i.toNat]? := by
  rw [dtcString, dtcScan_fst, dtcTable_eq, activeCodes]

/-- The names of the table are different. -/
theorem nodup_names : (priorityTable.map Dtc.name).Nodup := by decide

theorem nodup_activeCodes (mem : Vector UInt8 256) :
    (activeCodes mem).Nodup :=
  nodup_names.sublist (List.filter_sublist.map Dtc.name)

/-- There are twenty codes, so every place in the list has an 8-bit index. -/
theorem length_activeCodes_le (mem : Vector UInt8 256) :
    (activeCodes mem).length ≤ 20 := by
  rw [activeCodes, List.length_map]
  exact List.length_filter_le _ priorityTable

/-- Counting up from zero visits every active code once, in order. -/
theorem dtcString_range (d : Decoder) :
    (List.range (activeCodes d.eblMem).length).map
      (fun n => dtcString d (UInt8.ofNat n))
        = (activeCodes d.eblMem).map some := by
  have hlen := length_activeCodes_le d.eblMem
  apply List.ext_getElem
  · simp
  · intro n hn hn'
    rw [List.length_map] at hn'
    have hnat : (UInt8.ofNat n).toNat = n :=
      UInt8.toNat_ofNat_of_lt' (by rw [UInt8.size]; omega)
    rw [List.getElem_map, List.getElem_range, List.getElem_map, dtcString_nth,
      hnat, List.getElem?_eq_getElem hn']

/-- `dtc_string` enumerates the codes of the document that are set. -/
theorem dtcString_enumerates (d : Decoder) : Enumerates d where
  nth := dtcString_nth d
  none_iff := by
    intro i
    rw [dtcString_nth, List.getElem?_eq_none_iff]
  nodup := nodup_activeCodes d.eblMem
  once := dtcString_range d
  index := by
    intro i pre post htable hcount
    obtain ⟨j, hj, hpass⟩ := dtcScan_passes hcount
    refine ⟨j, hj, hpass, ?_⟩
    rw [htable]
    exact dtcScan_append post hpass
  wraps := fun i pre post _ hcount => dtcScan_answers hcount
  bits := by
    intro d' hsame i
    exact dtcScan_congr (fun e he => hsame.set_iff he) i

/-- The memory dump with the first code of the table set. -/
def vssMem : Vector UInt8 256 := (Vector.replicate 256 0).set 0x12 0x01

/-- The index wraps at the condition that answers. -/
theorem not_dtcIndex_le :
    dtcScan vssMem dtcTable 0 = (some "VSS   ", 255) ∧
      ¬ ∀ (mem : Vector UInt8 256) (i : UInt8),
        (dtcScan mem dtcTable i).2 ≤ i := by
  have hscan : dtcScan vssMem dtcTable 0 = (some "VSS   ", 255) := by
    decide +kernel
  refine ⟨hscan, fun h => ?_⟩
  have hle := h vssMem 0
  rw [hscan] at hle
  exact absurd hle (by decide)

end EBLmon.Ebl
