import CncCard.Pcie.Registers

/-!
`ext_inf` takes the interpolation words from the bus. The bus and the select are
registered once, and the write strobe of `rxproc` lasts two cycles at least, so the word
is sampled twice and pushed once, in the cycle that shows the second sample.
-/

namespace CncCard.Pcie

structure ExtInfInput where
  dq : Word
  dataWr : Bool
  extAdd : BitVec 22
  memsel1 : Bool

structure ExtInf where
  dqinreg : Word
  intregsel : Bool
  pctocardregsel : Bool
  pctocardreg : Word
  wrFlag : Bool
  cnt : BitVec 2
  wrreq : Bool

namespace ExtInf

def reset : ExtInf := ⟨0, false, false, 0, false, 0, false⟩

def fifoIn (s : ExtInf) : Word := s.pctocardreg

def extIntReq (almostEmpty valid : Bool) : Bool := almostEmpty && valid

/-- The BAR1 address of the interpolation words. -/
def selects (memsel1 : Bool) (extAdd : BitVec 22) : Bool :=
  memsel1 && extAdd == 0b0000000000000000010100

end ExtInf

def extInf (s : ExtInf) (i : ExtInfInput) : ExtInf where
  dqinreg := i.dq
  intregsel := i.memsel1 && i.extAdd == 0b0000000000000000000100
  pctocardregsel := ExtInf.selects i.memsel1 i.extAdd
  pctocardreg := if s.pctocardregsel && i.dataWr then s.dqinreg else s.pctocardreg
  wrFlag := s.pctocardregsel && i.dataWr
  cnt := if s.wrFlag && s.cnt == 0 then s.cnt + 1 else 0
  wrreq := s.wrFlag && s.cnt == 0

namespace ExtInf

/-- The words that go to `fifo33` in this cycle. -/
def pushed (s : ExtInf) : List Word := if s.wrreq then [s.fifoIn] else []

/-- No write is under way. -/
structure Calm (s : ExtInf) : Prop where
  wrFlag : s.wrFlag = false
  cnt : s.cnt = 0
  wrreq : s.wrreq = false

variable {s : ExtInf} {i : ExtInfInput}

theorem Calm.pushed (h : Calm s) : s.pushed = [] := by
  rw [ExtInf.pushed, h.wrreq]
  rfl

theorem Calm.next (h : Calm s) (hwr : i.dataWr = false) : Calm (extInf s i) where
  wrFlag := by simp [extInf, hwr]
  cnt := by simp [extInf, h.wrFlag]
  wrreq := by simp [extInf, h.wrFlag]

/-- The second cycle of a strobe: the first sample has been taken. -/
structure Sampled (s : ExtInf) (hit : Bool) (value : Word) : Prop where
  select : s.pctocardregsel = hit
  wrFlag : s.wrFlag = hit
  cnt : s.cnt = 0
  wrreq : s.wrreq = false
  dqinreg : s.dqinreg = value

/-- The cycle behind a strobe of two cycles: the second sample is pushed. -/
structure Pushing (s : ExtInf) (hit : Bool) (value : Word) : Prop where
  wrFlag : s.wrFlag = hit
  cnt : hit = true → s.cnt = 1
  wrreq : s.wrreq = hit
  pctocardreg : hit = true → s.pctocardreg = value

variable {hit : Bool} {value : Word}

theorem Calm.sampled (h : Calm s) (hsel : s.pctocardregsel = hit)
    (hstays : selects i.memsel1 i.extAdd = hit) (hwr : i.dataWr = true) :
    Sampled (extInf s i) hit i.dq where
  select := hstays
  wrFlag := by simp [extInf, hwr, hsel]
  cnt := by simp [extInf, h.wrFlag]
  wrreq := by simp [extInf, h.wrFlag]
  dqinreg := rfl

theorem Sampled.pushing (h : Sampled s hit value) (hwr : i.dataWr = true) :
    Pushing (extInf s i) hit value where
  wrFlag := by simp [extInf, hwr, h.select]
  cnt hhit := by simp [extInf, h.wrFlag, h.cnt, hhit]
  wrreq := by simp [extInf, h.wrFlag, h.cnt]
  pctocardreg hhit := by simp [extInf, hwr, h.select, hhit, h.dqinreg]

theorem Sampled.pushed (h : Sampled s hit value) : s.pushed = [] := by
  rw [ExtInf.pushed, h.wrreq]
  rfl

theorem Pushing.pushed (h : Pushing s hit value) :
    s.pushed = if hit then [value] else [] := by
  rw [ExtInf.pushed, h.wrreq]
  cases hhit : hit with
  | false => rfl
  | true => rw [if_pos rfl, if_pos rfl, fifoIn, h.pctocardreg hhit]

/-- The strobe is over, and the second flag meets the pulse former busy. -/
theorem Pushing.calm (h : Pushing s hit value) (hwr : i.dataWr = false) : Calm (extInf s i) := by
  have hbusy : (s.wrFlag && s.cnt == 0) = false := by
    rw [h.wrFlag]
    cases hhit : hit with
    | false => rfl
    | true => rw [h.cnt hhit]; rfl
  constructor
  · simp [extInf, hwr]
  · simp only [extInf, hbusy, Bool.false_eq_true, if_false]
  · exact hbusy

end ExtInf

end CncCard.Pcie
