import CncCard.Tool.CoAssign
import Mathlib.Tactic.FinCases

/-!
The routing table of `co_assign` against its VHDL original. The original gives the
channels to the enabled axes in ascending order for every mask with one to four axes;
three rows of the Verilog table do not.
-/

namespace CncCard
open Clocked

namespace CoAssign

/-- The `case` of `co_assign.vhd`. -/
def vhdlRows : List (BitVec 8 × List Nat) :=
  [(0b00001111, [1, 2, 3, 4]), (0b00010111, [1, 2, 3, 5]), (0b00100111, [1, 2, 3, 6]),
   (0b01000111, [1, 2, 3, 7]), (0b10000111, [1, 2, 3, 8]), (0b00011011, [1, 2, 4, 5]),
   (0b00101011, [1, 2, 4, 6]), (0b01001011, [1, 2, 4, 7]), (0b10001011, [1, 2, 4, 8]),
   (0b00110011, [1, 2, 5, 6]), (0b01010011, [1, 2, 5, 7]), (0b10010011, [1, 2, 5, 8]),
   (0b01100011, [1, 2, 6, 7]), (0b10100011, [1, 2, 6, 8]), (0b11000011, [1, 2, 7, 8]),
   (0b00011101, [1, 3, 4, 5]), (0b00101101, [1, 3, 4, 6]), (0b01001101, [1, 3, 4, 7]),
   (0b10001101, [1, 3, 4, 8]), (0b00110101, [1, 3, 5, 6]), (0b01010101, [1, 3, 5, 7]),
   (0b10010101, [1, 3, 5, 8]), (0b01100101, [1, 3, 6, 7]), (0b10100101, [1, 3, 6, 8]),
   (0b11000101, [1, 3, 7, 8]), (0b00111001, [1, 4, 5, 6]), (0b01011001, [1, 4, 5, 7]),
   (0b10011001, [1, 4, 5, 8]), (0b01101001, [1, 4, 6, 7]), (0b10101001, [1, 4, 6, 8]),
   (0b11001001, [1, 4, 7, 8]), (0b01110001, [1, 5, 6, 7]), (0b10110001, [1, 5, 6, 8]),
   (0b11010001, [1, 5, 7, 8]), (0b11100001, [1, 6, 7, 8]), (0b00011110, [2, 3, 4, 5]),
   (0b00101110, [2, 3, 4, 6]), (0b01001110, [2, 3, 4, 7]), (0b10001110, [2, 3, 4, 8]),
   (0b00110110, [2, 3, 5, 6]), (0b01010110, [2, 3, 5, 7]), (0b10010110, [2, 3, 5, 8]),
   (0b01100110, [2, 3, 6, 7]), (0b10100110, [2, 3, 6, 8]), (0b11000110, [2, 3, 7, 8]),
   (0b00111010, [2, 4, 5, 6]), (0b01011010, [2, 4, 5, 7]), (0b10011010, [2, 4, 5, 8]),
   (0b01101010, [2, 4, 6, 7]), (0b10101010, [2, 4, 6, 8]), (0b11001010, [2, 4, 7, 8]),
   (0b01110010, [2, 5, 6, 7]), (0b10110010, [2, 5, 6, 8]), (0b11010010, [2, 5, 7, 8]),
   (0b11100010, [2, 6, 7, 8]), (0b00111100, [3, 4, 5, 6]), (0b01011100, [3, 4, 5, 7]),
   (0b10011100, [3, 4, 5, 8]), (0b01101100, [3, 4, 6, 7]), (0b10101100, [3, 4, 6, 8]),
   (0b11001100, [3, 4, 7, 8]), (0b01110100, [3, 5, 6, 7]), (0b10110100, [3, 5, 6, 8]),
   (0b11010100, [3, 5, 7, 8]), (0b11100100, [3, 6, 7, 8]), (0b01111000, [4, 5, 6, 7]),
   (0b10111000, [4, 5, 6, 8]), (0b11011000, [4, 5, 7, 8]), (0b11101000, [4, 6, 7, 8]),
   (0b11110000, [5, 6, 7, 8]), (0b00000111, [1, 2, 3]), (0b00001011, [1, 2, 4]),
   (0b00010011, [1, 2, 5]), (0b00100011, [1, 2, 6]), (0b01000011, [1, 2, 7]),
   (0b10000011, [1, 2, 8]), (0b00001101, [1, 3, 4]), (0b00010101, [1, 3, 5]),
   (0b00100101, [1, 3, 6]), (0b01000101, [1, 3, 7]), (0b10000101, [1, 3, 8]),
   (0b00011001, [1, 4, 5]), (0b00101001, [1, 4, 6]), (0b01001001, [1, 4, 7]),
   (0b10001001, [1, 4, 8]), (0b00110001, [1, 5, 6]), (0b01010001, [1, 5, 7]),
   (0b10010001, [1, 5, 8]), (0b01100001, [1, 6, 7]), (0b10100001, [1, 6, 8]),
   (0b11000001, [1, 7, 8]), (0b00001110, [2, 3, 4]), (0b00010110, [2, 3, 5]),
   (0b00100110, [2, 3, 6]), (0b01000110, [2, 3, 7]), (0b10000110, [2, 3, 8]),
   (0b00011010, [2, 4, 5]), (0b00101010, [2, 4, 6]), (0b01001010, [2, 4, 7]),
   (0b10001010, [2, 4, 8]), (0b00110010, [2, 5, 6]), (0b01010010, [2, 5, 7]),
   (0b10010010, [2, 5, 8]), (0b01100010, [2, 6, 7]), (0b10100010, [2, 6, 8]),
   (0b11000010, [2, 7, 8]), (0b00011100, [3, 4, 5]), (0b00101100, [3, 4, 6]),
   (0b01001100, [3, 4, 7]), (0b10001100, [3, 4, 8]), (0b00110100, [3, 5, 6]),
   (0b01010100, [3, 5, 7]), (0b10010100, [3, 5, 8]), (0b01100100, [3, 6, 7]),
   (0b10100100, [3, 6, 8]), (0b11000100, [3, 7, 8]), (0b00111000, [4, 5, 6]),
   (0b01011000, [4, 5, 7]), (0b10011000, [4, 5, 8]), (0b01101000, [4, 6, 7]),
   (0b10101000, [4, 6, 8]), (0b11001000, [4, 7, 8]), (0b01110000, [5, 6, 7]),
   (0b10110000, [5, 6, 8]), (0b11010000, [5, 7, 8]), (0b11100000, [6, 7, 8]), (0b00000011, [1, 2]),
   (0b00000101, [1, 3]), (0b00001001, [1, 4]), (0b00010001, [1, 5]), (0b00100001, [1, 6]),
   (0b01000001, [1, 7]), (0b10000001, [1, 8]), (0b00000110, [2, 3]), (0b00001010, [2, 4]),
   (0b00010010, [2, 5]), (0b00100010, [2, 6]), (0b01000010, [2, 7]), (0b10000010, [2, 8]),
   (0b00001100, [3, 4]), (0b00010100, [3, 5]), (0b00100100, [3, 6]), (0b01000100, [3, 7]),
   (0b10000100, [3, 8]), (0b00011000, [4, 5]), (0b00101000, [4, 6]), (0b01001000, [4, 7]),
   (0b10001000, [4, 8]), (0b00110000, [5, 6]), (0b01010000, [5, 7]), (0b10010000, [5, 8]),
   (0b01100000, [6, 7]), (0b10100000, [6, 8]), (0b11000000, [7, 8]), (0b00000001, [1]),
   (0b00000010, [2]), (0b00000100, [3]), (0b00001000, [4]), (0b00010000, [5]), (0b00100000, [6]),
   (0b01000000, [7]), (0b10000000, [8])]

def vhdlRoute (coreg : BitVec 8) : List Nat := (vhdlRows.lookup coreg).getD [1, 2, 3, 4]

def vhdlChannel (coreg : BitVec 8) (k : Fin 8) : Option Axis :=
  ((vhdlRoute coreg).zip [Axis.x, .y, .z, .a]).lookup (k.val + 1)

/-- What an axis carries in the original. -/
def vhdlRouted (s : CoAssign) (x : Axis → Bool) (k : Fin 8) : Bool :=
  ((vhdlChannel s.coreg k).map x).getD false

end CoAssign

/-- The process of `co_assign.vhd`, on the same registers. -/
def coAssignVhdl (s : CoAssign) (i : CoAssignInput) : CoAssign where
  coreg :=
    BitVec.ofBool (i.co 7) ++ BitVec.ofBool (i.co 6) ++ BitVec.ofBool (i.co 5) ++
      BitVec.ofBool (i.co 4) ++ BitVec.ofBool (i.co 3) ++ BitVec.ofBool (i.co 2) ++
      BitVec.ofBool (i.co 1) ++ BitVec.ofBool (i.co 0)
  mag := i.magSel
  p k :=
    if s.mag then (if k = 7 then i.mp else false)
    else s.vhdlRouted i.p k
  d k :=
    if s.mag then (if k = 7 then i.md else false)
    else s.vhdlRouted i.d k

namespace CoAssign

/-- The enabled axes in ascending order. -/
def enabled (mask : BitVec 8) : List Nat :=
  ((List.range 8).filter mask.getLsbD).map (· + 1)

/-- The channel of an enabled axis is its rank among them; the others have none. -/
def ranked (mask : BitVec 8) (k : Fin 8) : Option Axis :=
  if mask.getLsbD k then [Axis.x, .y, .z, .a][(List.range k).countP mask.getLsbD]? else none

/-- Every mask in turn. -/
theorem forall_mask {P : BitVec 8 → Prop} (h : ∀ n : Fin 256, P (.ofFin n)) (mask : BitVec 8) :
    P mask := h mask.toFin

/-- Among the numbers from `a` that satisfy `p`, each is paired with the item of its rank. -/
theorem lookup_zip_filter {α : Type} (p : Nat → Bool) (items : List α) (a : Nat) {n k : Nat}
    (hk : k < n) :
    ((((List.range' a n).filter p).map (· + 1)).zip items).lookup (a + k + 1) =
      if p (a + k) then items[(List.range' a k).countP p]? else none := by
  induction n generalizing a k items with
  | zero => cases hk
  | succ n ih =>
      rw [List.range'_succ]
      cases k with
      | zero =>
          cases hp : p a with
          | true => cases items <;> simp [hp]
          | false =>
              have hlater : ∀ e ∈ (((List.range' (a + 1) n).filter p).map (· + 1)).zip items,
                  a + 1 ≠ e.1 := by
                rintro ⟨m, item⟩ hmem
                have hm := (List.of_mem_zip hmem).1
                simp only [List.mem_map, List.mem_filter, List.mem_range'_1] at hm
                omega
              have hnone := List.lookup_eq_none_iff.mpr fun e he => bne_iff_ne.mpr (hlater e he)
              simpa [hp] using hnone
      | succ k =>
          have htail (items : List α) := ih items (a + 1) (Nat.lt_of_succ_lt_succ hk)
          have hshift : a + 1 + k = a + (k + 1) := by omega
          rw [hshift] at htail
          cases hp : p a with
          | false => simp [hp, htail, List.range'_succ]
          | true =>
              cases items with
              | nil => simp
              | cons item items =>
                  have hne : (a + (k + 1) == a) = false := beq_false_of_ne (by omega)
                  simp [hp, htail, List.range'_succ, List.lookup_cons, hne]

theorem zip_enabled (mask : BitVec 8) (k : Fin 8) :
    ((enabled mask).zip [Axis.x, .y, .z, .a]).lookup (k.val + 1) = ranked mask k := by
  have hrank := lookup_zip_filter mask.getLsbD [Axis.x, .y, .z, .a] 0 k.isLt
  rw [Nat.zero_add, ← List.range_eq_range', ← List.range_eq_range'] at hrank
  exact hrank

theorem vhdlRows_enabled : ∀ row ∈ vhdlRows, row.2 = enabled row.1 := by
  decide +kernel

theorem vhdlRows_complete (mask : BitVec 8) (hlow : 1 ≤ (enabled mask).length)
    (hhigh : (enabled mask).length ≤ 4) : (vhdlRows.lookup mask).isSome = true := by
  revert mask
  exact forall_mask (by decide +kernel)

theorem vhdlRoute_eq (mask : BitVec 8) (hlow : 1 ≤ (enabled mask).length)
    (hhigh : (enabled mask).length ≤ 4) : vhdlRoute mask = enabled mask := by
  obtain ⟨axes, haxes⟩ := Option.isSome_iff_exists.mp (vhdlRows_complete mask hlow hhigh)
  obtain ⟨before, after, hrows, -⟩ := List.lookup_eq_some_iff.mp haxes
  have hmem : (mask, axes) ∈ vhdlRows := by
    rw [hrows]
    exact List.mem_append_right _ List.mem_cons_self
  rw [vhdlRoute, haxes]
  exact vhdlRows_enabled _ hmem

theorem lookup_congr {mask : BitVec 8} {l l' : List (BitVec 8 × List Nat)}
    (h : List.Forall₂ (fun row row' => row.1 = row'.1 ∧ (mask = row.1 → row.2 = row'.2)) l l') :
    l.lookup mask = l'.lookup mask := by
  induction h with
  | nil => rfl
  | @cons row row' _ _ hrow _ ih =>
      rw [List.lookup_cons, List.lookup_cons, ih, ← hrow.1]
      by_cases hmask : mask = row.1
      · rw [hrow.2 hmask]
      · rw [beq_false_of_ne hmask]

/-- The rows in which the two tables differ. -/
def Misrouted (mask : BitVec 8) : Prop := mask = 0x54 ∨ mask = 0xB0 ∨ mask = 0xD0

instance (mask : BitVec 8) : Decidable (Misrouted mask) :=
  inferInstanceAs (Decidable (_ ∨ _))

theorem rows_eq : List.Forall₂ (fun row row' => row.1 = row'.1 ∧
    (¬ Misrouted row.1 → row.2 = row'.2)) rows vhdlRows := by
  decide +kernel

theorem route_eq {mask : BitVec 8} (h : ¬ Misrouted mask) : route mask = vhdlRoute mask := by
  rw [route, vhdlRoute]
  congr 1
  exact lookup_congr (rows_eq.imp fun _ _ hrow =>
    ⟨hrow.1, fun hmask => hrow.2 (hmask ▸ h)⟩)

/-- The channels of one kind that the three rows misplace are low. -/
structure Low (mask : BitVec 8) (x : Axis → Bool) : Prop where
  z : mask = 0x54 ∨ mask = 0xD0 → x .z = false
  y : mask = 0xB0 ∨ mask = 0xD0 → x .y = false

theorem misrouted_rows :
    (route 0x54 = [3, 5, 6] ∧ vhdlRoute 0x54 = [3, 5, 7]) ∧
      (route 0xB0 = [5, 7, 8] ∧ vhdlRoute 0xB0 = [5, 6, 8]) ∧
      (route 0xD0 = [5, 8] ∧ vhdlRoute 0xD0 = [5, 7, 8]) := by
  decide +kernel

/-- What an axis carries by a row of the table. -/
def carried (row : List Nat) (x : Axis → Bool) (k : Fin 8) : Bool :=
  (((row.zip [Axis.x, .y, .z, .a]).lookup (k.val + 1)).map x).getD false

theorem carried_z (x : Axis → Bool) : carried [3, 5, 6] x = carried [3, 5, 7] x ↔
    x .z = false := by
  simp [carried, funext_iff, Fin.forall_fin_succ, List.lookup_cons]

theorem carried_y (x : Axis → Bool) : carried [5, 7, 8] x = carried [5, 6, 8] x ↔
    x .y = false := by
  simp [carried, funext_iff, Fin.forall_fin_succ, List.lookup_cons]

theorem carried_yz (x : Axis → Bool) : carried [5, 8] x = carried [5, 7, 8] x ↔
    x .y = false ∧ x .z = false := by
  have hrows : carried [5, 8] x = carried [5, 7, 8] x ↔ x .y = false ∧ x .y = x .z := by
    simp [carried, funext_iff, Fin.forall_fin_succ, List.lookup_cons]
  rw [hrows]
  exact and_congr_right fun hy => by rw [hy, eq_comm]

theorem routed_eq_iff (s : CoAssign) (x : Axis → Bool) :
    s.routed x = s.vhdlRouted x ↔ Low s.coreg x := by
  obtain ⟨⟨hz, hz'⟩, ⟨hy, hy'⟩, hyz, hyz'⟩ := misrouted_rows
  have hcarried : s.routed x = s.vhdlRouted x ↔
      carried (route s.coreg) x = carried (vhdlRoute s.coreg) x := Iff.rfl
  rw [hcarried]
  by_cases h : Misrouted s.coreg
  · obtain h | h | h := h
    · rw [h, hz, hz', carried_z]
      exact ⟨fun hlow => ⟨fun _ => hlow, fun hm => absurd hm (by decide)⟩,
        fun hlow => hlow.z (.inl rfl)⟩
    · rw [h, hy, hy', carried_y]
      exact ⟨fun hlow => ⟨fun hm => absurd hm (by decide), fun _ => hlow⟩,
        fun hlow => hlow.y (.inl rfl)⟩
    · rw [h, hyz, hyz', carried_yz]
      exact ⟨fun hlow => ⟨fun _ => hlow.2, fun _ => hlow.1⟩,
        fun hlow => ⟨hlow.y (.inr rfl), hlow.z (.inr rfl)⟩⟩
  · rw [route_eq h]
    exact ⟨fun _ => ⟨fun hm => absurd (hm.elim .inl fun hm => .inr (.inr hm)) h,
      fun hm => absurd (.inr hm) h⟩, fun _ => rfl⟩

/-- `coreg` after the axes have been read. -/
def maskOf (co : Fin 8 → Bool) : BitVec 8 :=
  BitVec.ofBool (co 7) ++ BitVec.ofBool (co 6) ++ BitVec.ofBool (co 5) ++
    BitVec.ofBool (co 4) ++ BitVec.ofBool (co 3) ++ BitVec.ofBool (co 2) ++
    BitVec.ofBool (co 1) ++ BitVec.ofBool (co 0)

def run (s : CoAssign) (inp : Nat → CoAssignInput) : Nat → CoAssign := trace coAssign s inp

def vhdlRun (s : CoAssign) (inp : Nat → CoAssignInput) : Nat → CoAssign :=
  trace coAssignVhdl s inp

/-- Each enabled axis carries the channel of its rank, pulse and direction alike, and each
disabled axis is low. -/
structure Ranked (out : CoAssign) (mask : BitVec 8) (i : CoAssignInput) : Prop where
  enabled : ∀ k : Fin 8, mask.getLsbD k = true →
    ∃ c, [Axis.x, .y, .z, .a][(List.range k).countP mask.getLsbD]? = some c ∧
      out.p k = i.p c ∧ out.d k = i.d c
  disabled : ∀ k : Fin 8, mask.getLsbD k = false → out.p k = false ∧ out.d k = false

/-- With one to four axes enabled they are served in their order, and the outputs are those
of the original. -/
structure Routes (out ref : CoAssign) (m : BitVec 8) (i : CoAssignInput) : Prop where
  ranked : 1 ≤ (enabled m).length → (enabled m).length ≤ 4 → Ranked out m i
  pulse : out.p = ref.p
  dir : out.d = ref.d

theorem rank_lt {mask : BitVec 8} {k : Fin 8} (hk : mask.getLsbD k = true) :
    (List.range k).countP mask.getLsbD < (enabled mask).length := by
  rw [enabled, List.length_map, ← List.countP_eq_length_filter]
  have hnext : (List.range (k + 1)).countP mask.getLsbD =
      (List.range k).countP mask.getLsbD + 1 := by
    simp [List.range_succ, hk]
  have hsub : (List.range (k + 1)).countP mask.getLsbD ≤ (List.range 8).countP mask.getLsbD :=
    (List.range_sublist.mpr k.isLt).countP_le
  omega

theorem ranked_vhdl {s : CoAssign} {i : CoAssignInput} {out : CoAssign}
    (hlow : 1 ≤ (enabled s.coreg).length) (hhigh : (enabled s.coreg).length ≤ 4)
    (hp : out.p = s.vhdlRouted i.p) (hd : out.d = s.vhdlRouted i.d) :
    Ranked out s.coreg i := by
  have hrouted (x : Axis → Bool) (k : Fin 8) :
      s.vhdlRouted x k = ((ranked s.coreg k).map x).getD false := by
    rw [vhdlRouted, vhdlChannel, vhdlRoute_eq _ hlow hhigh, zip_enabled]
  refine ⟨fun k hk => ?_, fun k hk => ?_⟩
  · have hrank := Nat.lt_of_lt_of_le (rank_lt hk) hhigh
    refine ⟨_, List.getElem?_eq_getElem hrank, ?_, ?_⟩
    · rw [hp, hrouted, ranked, if_pos hk, List.getElem?_eq_getElem hrank]
      rfl
    · rw [hd, hrouted, ranked, if_pos hk, List.getElem?_eq_getElem hrank]
      rfl
  · rw [hp, hd, hrouted, hrouted, ranked, if_neg (Bool.eq_false_iff.mp hk)]
    exact ⟨rfl, rfl⟩

section Run

variable (s s' : CoAssign) {inp : Nat → CoAssignInput}

theorem run_routed (hmag : ∀ t, (inp t).magSel = false) (t : Nat) :
    (run s inp (t + 2)).p = (run s inp (t + 1)).routed (inp (t + 1)).p ∧
      (run s inp (t + 2)).d = (run s inp (t + 1)).routed (inp (t + 1)).d := by
  have hoff : (run s inp (t + 1)).mag = false := hmag t
  have hsucc : run s inp (t + 2) = coAssign (run s inp (t + 1)) (inp (t + 1)) := rfl
  rw [hsucc]
  constructor <;> funext k <;> simp only [coAssign, hoff, Bool.false_eq_true, if_false]

/-- The registers of both hold the mask, so the original routes by the same one. -/
theorem vhdlRun_routed (hmag : ∀ t, (inp t).magSel = false) (t : Nat) :
    (vhdlRun s' inp (t + 2)).p = (run s inp (t + 1)).vhdlRouted (inp (t + 1)).p ∧
      (vhdlRun s' inp (t + 2)).d = (run s inp (t + 1)).vhdlRouted (inp (t + 1)).d := by
  have hoff : (vhdlRun s' inp (t + 1)).mag = false := hmag t
  have hcoreg : (vhdlRun s' inp (t + 1)).coreg = (run s inp (t + 1)).coreg := rfl
  have hsucc : vhdlRun s' inp (t + 2) =
      coAssignVhdl (vhdlRun s' inp (t + 1)) (inp (t + 1)) := rfl
  rw [hsucc]
  constructor <;> funext k <;>
    simp only [coAssignVhdl, vhdlRouted, hoff, hcoreg, Bool.false_eq_true, if_false]

end Run

/-- The routing is right and agrees with the original in a run if and only if the channels
that the three rows misplace are low whenever their masks are set. -/
theorem routes_iff_low (s s' : CoAssign) (inp : Nat → CoAssignInput)
    (hmag : ∀ t, (inp t).magSel = false) :
    (∀ t, Routes (run s inp (t + 2)) (vhdlRun s' inp (t + 2)) (maskOf (inp t).co)
        (inp (t + 1))) ↔
      ∀ t, Low (maskOf (inp t).co) (inp (t + 1)).p ∧
        Low (maskOf (inp t).co) (inp (t + 1)).d := by
  refine forall_congr' fun t => ?_
  have hcoreg : (run s inp (t + 1)).coreg = maskOf (inp t).co := rfl
  obtain ⟨hp, hd⟩ := run_routed s hmag t
  obtain ⟨hvp, hvd⟩ := vhdlRun_routed s s' hmag t
  constructor
  · intro h
    have hpulse := h.pulse
    have hdir := h.dir
    rw [hp, hvp, routed_eq_iff, hcoreg] at hpulse
    rw [hd, hvd, routed_eq_iff, hcoreg] at hdir
    exact ⟨hpulse, hdir⟩
  · rintro ⟨hpulse, hdir⟩
    rw [← hcoreg] at hpulse hdir ⊢
    rw [← routed_eq_iff] at hpulse hdir
    exact ⟨fun hlow hhigh => ranked_vhdl hlow hhigh (hp.trans hpulse) (hd.trans hdir),
      (hp.trans hpulse).trans hvp.symm, (hd.trans hdir).trans hvd.symm⟩

/-- A pulse on Z only, with the axes of a mask enabled. -/
def zPulse (mask : BitVec 8) : CoAssignInput :=
  ⟨fun k => mask.getLsbD k, fun c => c == .z, fun _ => false, false, false, false⟩

def cleared : CoAssign := ⟨0, false, fun _ => false, fun _ => false⟩

theorem routes_iff_low_threeAxes :
    Routes (run cleared (fun _ => zPulse 0x07) 2) (vhdlRun cleared (fun _ => zPulse 0x07) 2)
      (maskOf (zPulse 0x07).co) (zPulse 0x07) :=
  (routes_iff_low cleared cleared (fun _ => zPulse 0x07) fun _ => rfl).mpr (fun _ =>
    ⟨⟨fun h => absurd h (by decide +kernel), fun h => absurd h (by decide +kernel)⟩,
      ⟨fun _ => rfl, fun _ => rfl⟩⟩) 0

/-- Axes 3, 5 and 7: the pulse comes out at axis 6, which is not enabled. -/
theorem routes_disabledAxis_false :
    ¬ ∀ t, Routes (run cleared (fun _ => zPulse 0x54) (t + 2))
      (vhdlRun cleared (fun _ => zPulse 0x54) (t + 2)) (maskOf (zPulse 0x54).co)
      (zPulse 0x54) := by
  intro h
  have hranked := (h 0).ranked (by decide +kernel) (by decide +kernel)
  exact absurd (hranked.disabled 5 (by decide +kernel)).1 (by decide +kernel)

end CoAssign

end CncCard
