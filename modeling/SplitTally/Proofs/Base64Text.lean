import SplitTally.Proofs.HexText
import SplitTally.Text.Base64

/-!
# Base 64 text is read back

Four symbols stand for three bytes when the numbers of the symbols and the bytes are digits of one
number, in base 64 and in base 256. The last group may stand for fewer bytes, with zeros behind
their bits and pads for the symbols that are not needed. A text is read as a byte string exactly if
it is what is written for it, so every byte string has one text only.
-/

namespace SplitTally.Base64

/-! ### Symbols -/

/-- The byte of the symbol of a number. -/
def code (n : ℕ) : UInt8 := (symbol n).val.toUInt8

/-- A symbol is read as the number it was written for. -/
theorem value?_code {n : ℕ} (hn : n < 64) : value? (code n) = some n := by
  revert n
  decide

/-- A byte that is read as a number is that of its symbol. -/
theorem code_of_value? {c : UInt8} {n : ℕ} (h : value? c = some n) : n < 64 ∧ code n = c := by
  have hall : ∀ i : Fin 256, ∀ n ∈ value? (UInt8.ofNat i), n < 64 ∧ code n = UInt8.ofNat i := by
    decide +kernel
  have hc := hall ⟨c.toNat, c.toNat_lt⟩ n
  rw [UInt8.ofNat_toNat] at hc
  exact hc h

/-- No symbol is the padding. -/
theorem code_ne_pad {n : ℕ} (hn : n < 64) : code n ≠ pad := by
  revert n
  decide

/-- Every symbol is one byte of the text. -/
theorem utf8Size_symbol {n : ℕ} (hn : n < 64) : (symbol n).utf8Size = 1 := by
  revert n
  decide

/-- No symbol is the padding character. -/
theorem symbol_ne_pad {n : ℕ} (hn : n < 64) : symbol n ≠ '=' := by
  revert n
  decide

/-! ### Full groups -/

/-- A number has the byte as its lowest eight bits. -/
theorem toUInt8_eq {n : ℕ} {b : UInt8} (h : n % 256 = b.toNat) : n.toUInt8 = b := by
  apply UInt8.toNat_inj.mp
  rw [Nat.toUInt8_eq, UInt8.toNat_ofNat', ← h]

/-- Numbers of six bits and bytes that are the same bits. In each group four numbers and three bytes
are the digits of one number. -/
inductive SameBits : List ℕ → List UInt8 → Prop
  | nil : SameBits [] []
  | cons {p q r s : ℕ} {a b c : UInt8} {ns : List ℕ} {bytes : List UInt8}
      (hp : p < 64) (hq : q < 64) (hr : r < 64) (hs : s < 64)
      (hgroup : p * 0x40000 + q * 0x1000 + r * 64 + s =
        a.toNat * 0x10000 + b.toNat * 0x100 + c.toNat)
      (hrest : SameBits ns bytes) : SameBits (p :: q :: r :: s :: ns) (a :: b :: c :: bytes)

namespace SameBits

variable {ns : List ℕ} {bytes : List UInt8}

/-- Full groups of three bytes have the bits of groups of four numbers. -/
theorem exists_numbers {k : ℕ} (h : bytes.length = 3 * k) : ∃ ns, SameBits ns bytes := by
  induction k generalizing bytes with
  | zero => exact ⟨[], List.length_eq_zero_iff.mp h ▸ .nil⟩
  | succ k ih =>
    match bytes with
    | [] | [_] | [_, _] => simp only [List.length_cons, List.length_nil] at h; omega
    | a :: b :: c :: rest =>
      have hlength : rest.length = 3 * k := by
        simp only [List.length_cons] at h
        omega
      obtain ⟨ns, hns⟩ := ih hlength
      have ha := a.toNat_lt
      have hb := b.toNat_lt
      have hc := c.toNat_lt
      let n := a.toNat * 0x10000 + b.toNat * 0x100 + c.toNat
      refine ⟨n / 0x40000 :: n / 0x1000 % 64 :: n / 64 % 64 :: n % 64 :: ns, ?_⟩
      refine .cons ?_ ?_ ?_ ?_ ?_ hns <;> omega

/-- Full groups of four numbers have the bits of groups of three bytes. -/
theorem exists_bytes {k : ℕ} (h : ns.length = 4 * k) (hns : ∀ n ∈ ns, n < 64) :
    ∃ bytes, SameBits ns bytes := by
  induction k generalizing ns with
  | zero => exact ⟨[], List.length_eq_zero_iff.mp h ▸ .nil⟩
  | succ k ih =>
    match ns with
    | [] | [_] | [_, _] | [_, _, _] => simp only [List.length_cons, List.length_nil] at h; omega
    | p :: q :: r :: s :: rest =>
      simp only [List.forall_mem_cons] at hns
      obtain ⟨hp, hq, hr, hs, hrest⟩ := hns
      have hlength : rest.length = 4 * k := by
        simp only [List.length_cons] at h
        omega
      obtain ⟨bytes, hbytes⟩ := ih hlength hrest
      let n := p * 0x40000 + q * 0x1000 + r * 64 + s
      refine ⟨(n / 0x10000).toUInt8 :: (n / 0x100).toUInt8 :: n.toUInt8 :: bytes, ?_⟩
      refine .cons hp hq hr hs ?_ hbytes
      simp only [Nat.toUInt8_eq, UInt8.toNat_ofNat']
      omega

/-- Numbers with the bits of bytes have six bits each. -/
theorem numbers_lt (h : SameBits ns bytes) : ∀ n ∈ ns, n < 64 := by
  induction h with
  | nil => simp
  | cons hp hq hr hs _ _ ih =>
    simp only [List.forall_mem_cons]
    exact ⟨hp, hq, hr, hs, ih⟩

/-- There are four numbers for three bytes. -/
theorem length_numbers (h : SameBits ns bytes) : 3 * ns.length = 4 * bytes.length := by
  induction h with
  | nil => rfl
  | cons _ _ _ _ _ _ ih =>
    simp only [List.length_cons]
    omega

/-- The numbers are read as the bytes. -/
theorem groupsOnto_eq (h : SameBits ns bytes) (done : List UInt8) :
    groupsOnto done ns = done.reverse ++ bytes := by
  induction h generalizing done with
  | nil => simp [groupsOnto]
  | @cons p q r s a b c ns bytes hp hq hr hs hgroup hrest ih =>
    have ha := a.toNat_lt
    have hb := b.toNat_lt
    have hc := c.toNat_lt
    rw [groupsOnto, hgroup]
    generalize hn : a.toNat * 0x10000 + b.toNat * 0x100 + c.toNat = n
    have hhigh : (n / 0x10000).toUInt8 = a := toUInt8_eq (by omega)
    have hmiddle : (n / 0x100).toUInt8 = b := toUInt8_eq (by omega)
    have hlow : n.toUInt8 = c := toUInt8_eq (by omega)
    simp only [hhigh, hmiddle, hlow, ih]
    simp

/-- The bytes are written as the symbols of the numbers. -/
theorem symbols_append (h : SameBits ns bytes) (rest : List UInt8) :
    symbols (bytes ++ rest) = ns.map symbol ++ symbols rest := by
  induction h with
  | nil => rfl
  | @cons p q r s a b c ns bytes hp hq hr hs hgroup hrest ih =>
    rw [List.cons_append, List.cons_append, List.cons_append, symbols, ← hgroup, ih]
    generalize hn : p * 0x40000 + q * 0x1000 + r * 64 + s = n
    have hfirst : n / 0x40000 = p := by omega
    have hsecond : n / 0x1000 % 64 = q := by omega
    have hthird : n / 64 % 64 = r := by omega
    have hlast : n % 64 = s := by omega
    simp only [hfirst, hsecond, hthird, hlast, List.map_cons, List.cons_append]

end SameBits

/-! ### The last group -/

/-- Symbols in front of the pads are all taken. -/
theorem readTail_append (start index : ℕ) (values : List ℕ) (last : UInt8) {ns : List ℕ}
    (hns : ∀ n ∈ ns, n < 64) (rest : List UInt8) :
    ∃ last', readTail start index ⟨values, last, 0⟩ (ns.map code ++ rest) =
      readTail start (index + ns.length) ⟨ns.reverse ++ values, last', 0⟩ rest := by
  induction ns generalizing index values last with
  | nil => exact ⟨last, rfl⟩
  | cons n ns ih =>
    rw [List.forall_mem_cons] at hns
    obtain ⟨last', hlast⟩ := ih (index + 1) (n :: values) (code n) hns.2
    refine ⟨last', ?_⟩
    rw [List.map_cons, List.cons_append, readTail, if_neg (code_ne_pad hns.1), if_neg (by simp),
      value?_code hns.1]
    simp only [hlast, List.length_cons, List.reverse_cons, List.append_assoc, List.singleton_append,
      Nat.add_assoc, Nat.add_comm 1]

/-- Pads are counted in the second half of a group. -/
theorem readTail_pads (start : ℕ) {index : ℕ} (hindex : 2 ≤ index) (tail : Tail) (pads : ℕ) :
    readTail start index tail (List.replicate pads pad) =
      .ok { tail with pads := tail.pads + pads } := by
  induction pads generalizing index tail with
  | zero => rfl
  | succ pads ih =>
    rw [List.replicate_succ, readTail, if_pos rfl, if_neg (by omega), ih (by omega)]
    simp only [Nat.add_assoc, Nat.add_comm 1]

/-- Only symbols and pads behind them are read. -/
theorem shape_of_readTail {start index : ℕ} {tail tail' : Tail} {text : List UInt8}
    (h : readTail start index tail text = .ok tail') :
    ∃ ns pads, text = ns.map code ++ List.replicate pads pad ∧ (∀ n ∈ ns, n < 64) ∧
      (tail.pads ≠ 0 → ns = []) ∧ tail'.values = ns.reverse ++ tail.values ∧
      tail'.pads = tail.pads + pads := by
  fun_induction readTail start index tail text with
  | case1 index tail =>
    cases h
    exact ⟨[], 0, by simp⟩
  | case2 => cases h
  | case3 index tail rest hindex ih =>
    obtain ⟨ns, pads, rfl, -, hnone, hvalues, hpads⟩ := ih h
    obtain rfl := hnone (Nat.succ_ne_zero _)
    refine ⟨[], pads + 1, by simp [List.replicate_succ], by simp, fun _ => rfl, hvalues, ?_⟩
    rw [hpads]
    exact Nat.add_right_comm _ _ _
  | case4 => cases h
  | case5 => cases h
  | case6 index tail c rest hpad hfirst n hvalue ih =>
    obtain ⟨ns, pads, rfl, hns, -, hvalues, hpads⟩ := ih h
    obtain ⟨hn, rfl⟩ := code_of_value? hvalue
    refine ⟨n :: ns, pads, rfl, List.forall_mem_cons.mpr ⟨hn, hns⟩, fun hne => ?_, ?_, hpads⟩
    · exact absurd (Nat.pos_of_ne_zero hne) hfirst
    · rw [hvalues, List.reverse_cons, List.append_assoc, List.singleton_append]

/-- The last numbers of six bits and the last bytes, of which there are three at most, are the same
bits, with zeros behind them in the last number. -/
inductive LastBits : List ℕ → List UInt8 → Prop
  | one {p q : ℕ} {a : UInt8} (hlast : p * 64 + q = a.toNat * 16) : LastBits [p, q] [a]
  | two {p q r : ℕ} {a b : UInt8}
      (hlast : p * 0x1000 + q * 64 + r = a.toNat * 0x400 + b.toNat * 4) : LastBits [p, q, r] [a, b]
  | three {p q r s : ℕ} {a b c : UInt8} (hlast : p * 0x40000 + q * 0x1000 + r * 64 + s =
      a.toNat * 0x10000 + b.toNat * 0x100 + c.toNat) : LastBits [p, q, r, s] [a, b, c]

namespace LastBits

variable {p q r s : ℕ} {ns : List ℕ} {bytes : List UInt8}

/-- Two numbers are read as a byte if the bits that are left over are zero. -/
theorem one_iff (hp : p < 64) (hq : q < 64) :
    LastBits [p, q] bytes ↔ q % 16 = 0 ∧ bytes = [(p * 4 + q / 16).toUInt8] := by
  constructor
  · intro h
    cases h with
    | @one _ _ a hlast =>
      have ha := a.toNat_lt
      rw [toUInt8_eq (b := a) (by omega)]
      exact ⟨by omega, rfl⟩
  · rintro ⟨hzero, rfl⟩
    refine .one ?_
    simp only [Nat.toUInt8_eq, UInt8.toNat_ofNat']
    omega

/-- Three numbers are read as two bytes if the bits that are left over are zero. -/
theorem two_iff (hp : p < 64) (hq : q < 64) (hr : r < 64) : LastBits [p, q, r] bytes ↔
    r % 4 = 0 ∧ bytes = [(p * 4 + q / 16).toUInt8, (q * 16 + r / 4).toUInt8] := by
  constructor
  · intro h
    cases h with
    | @two _ _ _ a b hlast =>
      have ha := a.toNat_lt
      have hb := b.toNat_lt
      rw [toUInt8_eq (b := a) (by omega), toUInt8_eq (b := b) (by omega)]
      exact ⟨by omega, rfl⟩
  · rintro ⟨hzero, rfl⟩
    refine .two ?_
    simp only [Nat.toUInt8_eq, UInt8.toNat_ofNat']
    omega

/-- Four numbers are read as three bytes. -/
theorem three_iff (hp : p < 64) (hq : q < 64) (hr : r < 64) (hs : s < 64) :
    LastBits [p, q, r, s] bytes ↔ bytes =
      [(p * 4 + q / 16).toUInt8, (q * 16 + r / 4).toUInt8, (r * 64 + s).toUInt8] := by
  constructor
  · intro h
    cases h with
    | @three _ _ _ _ a b c hlast =>
      have ha := a.toNat_lt
      have hb := b.toNat_lt
      have hc := c.toNat_lt
      rw [toUInt8_eq (b := a) (by omega), toUInt8_eq (b := b) (by omega),
        toUInt8_eq (b := c) (by omega)]
  · rintro rfl
    refine .three ?_
    simp only [Nat.toUInt8_eq, UInt8.toNat_ofNat']
    omega

/-- The last group has one number more than bytes. -/
theorem length_numbers (h : LastBits ns bytes) : ns.length = bytes.length + 1 := by
  cases h <;> rfl

/-- The last group has one to three bytes. -/
theorem length_bytes (h : LastBits ns bytes) : 0 < bytes.length ∧ bytes.length ≤ 3 := by
  cases h <;> simp

/-- The last bytes are written as the symbols of the numbers and pads behind them. -/
theorem symbols_eq (h : LastBits ns bytes) (hns : ∀ n ∈ ns, n < 64) :
    symbols bytes = ns.map symbol ++ List.replicate (4 - ns.length) '=' := by
  cases h with
  | @one p q a hlast =>
    simp only [List.forall_mem_cons] at hns
    have hp : a.toNat / 4 = p := by omega
    have hq : a.toNat % 4 * 16 = q := by omega
    rw [symbols, hp, hq]
    rfl
  | @two p q r a b hlast =>
    simp only [List.forall_mem_cons] at hns
    have ha := a.toNat_lt
    have hb := b.toNat_lt
    generalize hn : a.toNat * 0x100 + b.toNat = n
    have hp : n / 0x400 = p := by omega
    have hq : n / 16 % 64 = q := by omega
    have hr : n % 16 * 4 = r := by omega
    rw [symbols]
    simp only [hn, hp, hq, hr]
    rfl
  | @three p q r s a b c hlast =>
    simp only [List.forall_mem_cons] at hns
    exact (SameBits.cons hns.1 hns.2.1 hns.2.2.1 hns.2.2.2.1 hlast .nil).symbols_append []

/-- There are numbers for one to three bytes. -/
theorem exists_numbers (hpos : 0 < bytes.length) (hle : bytes.length ≤ 3) :
    ∃ ns, LastBits ns bytes ∧ ∀ n ∈ ns, n < 64 := by
  match bytes with
  | [a] =>
    have ha := a.toNat_lt
    refine ⟨[a.toNat / 4, a.toNat % 4 * 16], .one (by omega), ?_⟩
    simp only [List.forall_mem_cons]
    exact ⟨by omega, by omega, by simp⟩
  | [a, b] =>
    have ha := a.toNat_lt
    have hb := b.toNat_lt
    let n := a.toNat * 0x100 + b.toNat
    refine ⟨[n / 0x400, n / 16 % 64, n % 16 * 4], .two (by omega), ?_⟩
    simp only [List.forall_mem_cons]
    exact ⟨by omega, by omega, by omega, by simp⟩
  | [a, b, c] =>
    have hcount : [a, b, c].length = 3 * 1 := rfl
    obtain ⟨ns, hns⟩ := SameBits.exists_numbers hcount
    cases hns with
    | cons hp hq hr hs hgroup hrest =>
      cases hrest
      refine ⟨_, .three hgroup, ?_⟩
      simp only [List.forall_mem_cons]
      exact ⟨hp, hq, hr, hs, by simp⟩

end LastBits

/-- The bytes are full groups and a last one. -/
theorem exists_bits {bytes : List UInt8} (hne : bytes ≠ []) :
    ∃ front tail ns ms, bytes = front ++ tail ∧ SameBits ns front ∧ LastBits ms tail ∧
      ∀ m ∈ ms, m < 64 := by
  have hpos := List.length_pos_iff.mpr hne
  obtain ⟨k, hk⟩ : ∃ k, k = (bytes.length - 1) / 3 := ⟨_, rfl⟩
  have hfront : (bytes.take (3 * k)).length = 3 * k := by
    rw [List.length_take]
    omega
  have htail : 0 < (bytes.drop (3 * k)).length ∧ (bytes.drop (3 * k)).length ≤ 3 := by
    rw [List.length_drop]
    omega
  obtain ⟨ns, hns⟩ := SameBits.exists_numbers hfront
  obtain ⟨ms, hlast, hms⟩ := LastBits.exists_numbers htail.1 htail.2
  exact ⟨_, _, ns, ms, (List.take_append_drop _ bytes).symm, hns, hlast, hms⟩

/-- The last group is read if its numbers are those of the last bytes, and pads fill it up. -/
theorem decodeTail_eq_ok_iff_of_readTail {start pads : ℕ} {text : List UInt8} {ns : List ℕ}
    {last : UInt8} {bytes : List UInt8} (hns : ∀ n ∈ ns, n < 64) (hle : ns.length ≤ 4)
    (h : readTail start 0 ⟨[], 0, 0⟩ text = .ok ⟨ns.reverse, last, pads⟩) (hne : text ≠ []) :
    decodeTail start text = .ok bytes ↔ (ns.length + pads) % 4 = 0 ∧ LastBits ns bytes := by
  have hempty : text.isEmpty = false := by simpa using hne
  have hthrow {α : Type} (fault : Fault) : (throw fault : Except Fault α) = .error fault := rfl
  simp only [decodeTail, h, hempty, bind, Except.bind, Bool.false_eq_true, if_false,
    List.length_reverse, hthrow]
  by_cases hpads : (ns.length + pads) % 4 = 0
  · simp only [hpads, ne_eq, not_true_eq_false, if_false, true_and]
    match ns with
    | [] | [_] =>
      simp only [List.length_cons, List.length_nil]
      rw [if_pos (by decide)]
      exact ⟨nofun, nofun⟩
    | [p, q] =>
      simp only [List.forall_mem_cons] at hns
      rw [LastBits.one_iff hns.1 hns.2.1]
      by_cases hzero : q % 16 = 0 <;> simp [hzero, pure, Except.pure, eq_comm]
    | [p, q, r] =>
      simp only [List.forall_mem_cons] at hns
      rw [LastBits.two_iff hns.1 hns.2.1 hns.2.2.1]
      by_cases hzero : r % 4 = 0 <;> simp [hzero, pure, Except.pure, eq_comm]
    | [p, q, r, s] =>
      simp only [List.forall_mem_cons] at hns
      rw [LastBits.three_iff hns.1 hns.2.1 hns.2.2.1 hns.2.2.2.1]
      simp [pure, Except.pure, eq_comm]
    | p :: q :: r :: s :: t :: ns =>
      simp only [List.length_cons] at hle
      omega
  · simp only [hpads, ne_eq, not_false_eq_true, if_true, false_and, iff_false]
    split <;> simp

/-! ### Whole texts -/

/-- The symbols of a byte string, as bytes of a text. -/
def symbolBytes (bytes : List UInt8) : List UInt8 := (symbols bytes).map fun c => c.val.toUInt8

/-- There are four symbols for every three bytes, rounded up to whole groups. -/
theorem length_symbols (bytes : List UInt8) :
    (symbols bytes).length = (bytes.length + 2) / 3 * 4 := by
  fun_induction symbols bytes with
  | case1 a b c rest n ih =>
    simp only [List.length_cons, ih]
    omega
  | case2 | case3 | case4 => simp only [List.length_cons, List.length_nil]

/-- A text has four bytes for every three that it tells, rounded up to whole groups. -/
theorem length_symbolBytes (bytes : List UInt8) :
    (symbolBytes bytes).length = (bytes.length + 2) / 3 * 4 := by
  rw [symbolBytes, List.length_map, length_symbols]

/-- Full groups in front are told by the symbols of their numbers. -/
theorem SameBits.symbolBytes_append {ns : List ℕ} {bytes : List UInt8} (h : SameBits ns bytes)
    (rest : List UInt8) : symbolBytes (bytes ++ rest) = ns.map code ++ symbolBytes rest := by
  rw [symbolBytes, h.symbols_append, List.map_append, List.map_map]
  rfl

/-- The last group is told by the symbols of its numbers, filled up with padding. -/
theorem LastBits.symbolBytes_eq {ns : List ℕ} {bytes : List UInt8} (h : LastBits ns bytes)
    (hns : ∀ n ∈ ns, n < 64) :
    symbolBytes bytes = ns.map code ++ List.replicate (4 - ns.length) pad := by
  rw [symbolBytes, h.symbols_eq hns, List.map_append, List.map_map, List.map_replicate]
  rfl

/-- Of at most four bytes of a text the symbols of at most three bytes are read. -/
theorem decodeTail_eq_ok_iff {start : ℕ} {text bytes : List UInt8} (hshort : text.length ≤ 4) :
    decodeTail start text = .ok bytes ↔ bytes.length ≤ 3 ∧ text = symbolBytes bytes := by
  rcases eq_or_ne text [] with rfl | hne
  · have hnone : decodeTail start [] = .ok [] := rfl
    rw [hnone, Except.ok.injEq]
    constructor
    · rintro rfl
      exact ⟨by decide, rfl⟩
    · rintro ⟨hle, hempty⟩
      have hlength := length_symbolBytes bytes
      rw [← hempty, List.length_nil] at hlength
      exact (List.length_eq_zero_iff.mp (by omega)).symm
  · constructor
    · intro h
      cases hread : readTail start 0 ⟨[], 0, 0⟩ text with
      | error fault =>
        rw [decodeTail, hread] at h
        cases h
      | ok tail =>
        obtain ⟨values, last, pads⟩ := tail
        obtain ⟨ns, pads', rfl, hns, -, hvalues, hpads⟩ := shape_of_readTail hread
        simp only [List.append_nil, Nat.zero_add] at hvalues hpads
        subst hvalues hpads
        rw [List.length_append, List.length_map, List.length_replicate] at hshort
        obtain ⟨hgroup, hlast⟩ :=
          (decodeTail_eq_ok_iff_of_readTail hns (by omega) hread hne).mp h
        have hlength := hlast.length_numbers
        have hbytes := hlast.length_bytes
        have hfill : pads = 4 - ns.length := by omega
        exact ⟨hbytes.2, by rw [hlast.symbolBytes_eq hns, hfill]⟩
    · rintro ⟨hle, rfl⟩
      have hpos : 0 < bytes.length := by
        rcases bytes with _ | ⟨b, bytes⟩
        · exact absurd rfl hne
        · exact Nat.succ_pos _
      obtain ⟨ns, hlast, hns⟩ := LastBits.exists_numbers hpos hle
      have hlength := hlast.length_numbers
      obtain ⟨last, hvalues⟩ :=
        readTail_append start 0 [] 0 hns (List.replicate (4 - ns.length) pad)
      rw [readTail_pads start (by omega), List.append_nil, Nat.zero_add,
        ← hlast.symbolBytes_eq hns] at hvalues
      exact (decodeTail_eq_ok_iff_of_readTail hns (by omega) hvalues hne).mpr ⟨by omega, hlast⟩

/-- Symbols are read as their numbers, and nothing else is. -/
theorem valuesFrom_eq_ok_iff {done values : List ℕ} {offset : ℕ} {text : List UInt8} :
    valuesFrom done offset text = .ok values ↔ ∃ ns : List ℕ, (∀ n ∈ ns, n < 64) ∧
      text = ns.map code ∧ values = ns.reverse ++ done := by
  constructor
  · intro h
    fun_induction valuesFrom done offset text with
    | case1 done offset =>
      cases h
      exact ⟨[], by simp⟩
    | case2 done offset c rest n hvalue ih =>
      obtain ⟨ns, hns, rfl, rfl⟩ := ih h
      obtain ⟨hn, rfl⟩ := code_of_value? hvalue
      exact ⟨n :: ns, List.forall_mem_cons.mpr ⟨hn, hns⟩, rfl, by simp⟩
    | case3 => cases h
  · rintro ⟨ns, hns, rfl, rfl⟩
    induction ns generalizing done offset with
    | nil => rfl
    | cons n ns ih =>
      rw [List.forall_mem_cons] at hns
      rw [List.map_cons, valuesFrom, value?_code hns.1]
      have hrest : valuesFrom (n :: done) (offset + 1) (ns.map code) = _ := ih hns.2
      simp only [hrest, List.reverse_cons, List.append_assoc, List.singleton_append]

/-- A text is read in two parts, the groups in front of the last one and the last one. -/
theorem decodeBytes_eq_ok_iff_of_parts {text bytes : List UInt8} : decodeBytes text = .ok bytes ↔
    ∃ values tail, valuesFrom [] 0 (text.take ((text.length - 1) / 4 * 4)) = .ok values ∧
      decodeTail ((text.length - 1) / 4 * 4) (text.drop ((text.length - 1) / 4 * 4)) = .ok tail ∧
      bytes = groupsOnto [] values.reverse ++ tail := by
  generalize hstart : (text.length - 1) / 4 * 4 = start
  have hparts : (do
      let values ← valuesFrom [] 0 (text.take start)
      let tail ← decodeTail start (text.drop start)
      return groupsOnto [] values.reverse ++ tail : Except Fault (List UInt8)) = .ok bytes ↔
        ∃ values tail, valuesFrom [] 0 (text.take start) = .ok values ∧
          decodeTail start (text.drop start) = .ok tail ∧
          bytes = groupsOnto [] values.reverse ++ tail := by
    cases valuesFrom [] 0 (text.take start) <;> cases decodeTail start (text.drop start) <;>
      simp [bind, Except.bind, pure, Except.pure, eq_comm]
  rw [decodeBytes, hstart]
  by_cases hsingle : text.length % 4 = 1
  · -- the check of a single last byte only chooses between faults
    have hnone : ¬ ∃ values tail, valuesFrom [] 0 (text.take start) = .ok values ∧
        decodeTail start (text.drop start) = .ok tail ∧
        bytes = groupsOnto [] values.reverse ++ tail := by
      rintro ⟨values, tail, -, htail, -⟩
      have hone : (text.drop start).length = 1 := by
        rw [List.length_drop]
        omega
      obtain ⟨-, hdrop⟩ := (decodeTail_eq_ok_iff (by omega)).mp htail
      rw [hdrop, length_symbolBytes] at hone
      omega
    rw [if_pos hsingle]
    refine iff_of_false (fun h => hnone (hparts.mp ?_)) hnone
    split at h
    · split at h
      · cases h
      · exact h
    · exact h
  · rw [if_neg hsingle]
    exact hparts

/-- The bytes of a text are read as a byte string if they are those of its symbols. -/
theorem decodeBytes_eq_ok_iff {text bytes : List UInt8} :
    decodeBytes text = .ok bytes ↔ text = symbolBytes bytes := by
  rw [decodeBytes_eq_ok_iff_of_parts]
  generalize hstart : (text.length - 1) / 4 * 4 = start
  constructor
  · rintro ⟨values, tail, hvalues, htail, rfl⟩
    obtain ⟨ns, hns, htake, rfl⟩ := valuesFrom_eq_ok_iff.mp hvalues
    have hcount : ns.length = 4 * ((text.length - 1) / 4) := by
      have hlength := congrArg List.length htake
      rw [List.length_take, List.length_map] at hlength
      omega
    obtain ⟨front, hfront⟩ := SameBits.exists_bytes hcount hns
    have hshort : (text.drop start).length ≤ 4 := by
      rw [List.length_drop]
      omega
    obtain ⟨-, hdrop⟩ := (decodeTail_eq_ok_iff hshort).mp htail
    rw [List.append_nil, List.reverse_reverse, hfront.groupsOnto_eq, List.reverse_nil,
      List.nil_append, hfront.symbolBytes_append, ← hdrop, ← htake, List.take_append_drop]
  · rintro rfl
    rcases eq_or_ne bytes [] with rfl | hne
    · obtain rfl : 0 = start := hstart
      exact ⟨[], [], rfl, rfl, rfl⟩
    · obtain ⟨front, tail, ns, ms, rfl, hfront, hlast, hms⟩ := exists_bits hne
      have hnumbers := hfront.length_numbers
      have htail := hlast.length_bytes
      have hgroup := length_symbolBytes tail
      rw [hfront.symbolBytes_append, List.length_append, List.length_map] at hstart
      have hfull : (ns.map code).length = start := by
        rw [List.length_map]
        omega
      rw [hfront.symbolBytes_append, List.take_left' hfull, List.drop_left' hfull]
      refine ⟨ns.reverse, tail, ?_, ?_, ?_⟩
      · exact valuesFrom_eq_ok_iff.mpr ⟨ns, hfront.numbers_lt, rfl, by simp⟩
      · exact (decodeTail_eq_ok_iff (by omega)).mpr ⟨htail.2, rfl⟩
      · rw [List.reverse_reverse, hfront.groupsOnto_eq, List.reverse_nil, List.nil_append]

/-- A byte string is written in symbols, with at most two pads behind them. -/
theorem exists_symbols_eq (bytes : List UInt8) : ∃ (ns : List ℕ) (pads : ℕ), (∀ n ∈ ns, n < 64) ∧
    symbols bytes = ns.map symbol ++ List.replicate pads '=' ∧
      pads = (3 - bytes.length % 3) % 3 := by
  rcases eq_or_ne bytes [] with rfl | hne
  · exact ⟨[], 0, by simp, rfl, rfl⟩
  · obtain ⟨front, tail, ns, ms, rfl, hfront, hlast, hms⟩ := exists_bits hne
    have hnumbers := hfront.length_numbers
    have htail := hlast.length_bytes
    have hcount := hlast.length_numbers
    refine ⟨ns ++ ms, 4 - ms.length, ?_, ?_, ?_⟩
    · intro n hn
      exact (List.mem_append.mp hn).elim (hfront.numbers_lt n) (hms n)
    · rw [hfront.symbols_append, hlast.symbols_eq hms, List.map_append, List.append_assoc]
    · rw [List.length_append]
      omega

/-- A text is read as a byte string exactly if it is what is written for it. -/
theorem decode_eq_ok_iff {text : String} {bytes : List UInt8} :
    decode text = .ok bytes ↔ text = encode bytes := by
  have hascii : ∀ c ∈ symbols bytes, c.utf8Size = 1 := by
    obtain ⟨ns, pads, hns, hsymbols, -⟩ := exists_symbols_eq bytes
    intro c hc
    rw [hsymbols, List.mem_append, List.mem_map, List.mem_replicate] at hc
    rcases hc with ⟨n, hn, rfl⟩ | ⟨-, rfl⟩
    · exact utf8Size_symbol (hns n hn)
    · rfl
  rw [decode, decodeBytes_eq_ok_iff, symbolBytes, ← toList_toUTF8_of_ascii hascii, encode]
  exact toList_toUTF8_inj

end SplitTally.Base64
