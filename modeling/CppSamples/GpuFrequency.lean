/-
**Locking the frequency of a device.**

The driver keeps a maximal, a minimal and a current frequency in three files.  `lockGpuFrequency`
writes the requested frequency to the files of both limits, in the order in which the minimum does
not come above the maximum on the way: that depends on whether the request is below the current
frequency, which it reads first.  A read that delivers nothing counts as 1, and a text without a
number as 0.

A number is written as a signed one and into a buffer of fixed size; what the driver stores is taken
to be the unsigned number at the beginning of what is written.

Main definitions:

* `GpuFrequency.Device`, `GpuFrequency.Environment` — the stored values, and what the calls of the
  operating system return;
* `GpuFrequency.readULong`, `GpuFrequency.writeULong`, `GpuFrequency.lockGpuFrequency` — the code;
* `GpuFrequency.KeepsOrder` — what a call is expected to do.

Main results:

* `GpuFrequency.readULong_text` — the text of a number is read as that number, except for the
  largest one;
* `GpuFrequency.keepsOrder_writeBoth_iff` — what two writes do to the order of the limits;
* `GpuFrequency.lockGpuFrequency_keepsOrder_iff` — **the calls that keep the limits in order**, with
  `GpuFrequency.keepsOrder_of_read` for the calls that read the current frequency.
-/

import CppSamples.DecimalText

set_option relaxedAutoImplicit false
set_option autoImplicit false

namespace GpuFrequency

open DecimalText

/-! ### The driver -/

/-- The values in the files of the driver. -/
structure Device where
  max_freq : BitVec 64
  min_freq : BitVec 64
  cur_freq : BitVec 64

/-- The file of a limit. -/
inductive Limit
  | max
  | min
  deriving DecidableEq

/-- The driver takes a new limit. -/
def Device.store (dev : Device) (l : Limit) (v : BitVec 64) : Device :=
  match l with
  | .max => { dev with max_freq := v }
  | .min => { dev with min_freq := v }

/-- The limits are in order. -/
def Device.Ordered (dev : Device) : Prop := dev.min_freq ≤ dev.max_freq

/-- What the calls of the operating system return. -/
structure Environment where
  /-- whether `cur_freq` can be opened -/
  curOpens : Bool
  /-- whether the file of a limit can be opened -/
  opens : Limit → Bool
  /-- `strerror(errno)` -/
  strerror : String
  /-- what `read` delivers of `cur_freq`; nothing also when it fails -/
  text : List Char
  /-- what stands behind that in the memory -/
  behind : List Char
  /-- whether the write to the file of a limit succeeds -/
  writes : Limit → Bool

variable (env : Environment)

/-! ### The code -/

/-- The file of a limit. -/
def Limit.filename : Limit → String
  | .max => "/sys/class/devfreq/gpufreq/max_freq"
  | .min => "/sys/class/devfreq/gpufreq/min_freq"

/-- The constructor of `Descriptor`, which throws when the file cannot be opened. -/
def openFile (opens : Bool) (filename : String) : Except String Unit :=
  if opens then .ok ()
  else .error ("failed to open file '" ++ filename ++ "': " ++ env.strerror)

/-- `readULong` -/
def readULong : BitVec 64 :=
  if env.text = [] then 1
  else
    let retVal := strtoumax (env.text ++ env.behind)
    if uintmaxMax = retVal then 1 else retVal

/-- `getGpuFrequency` -/
def getGpuFrequency : Except String (BitVec 64) := do
  openFile env env.curOpens "/sys/class/devfreq/gpufreq/cur_freq"
  return readULong env

/-- The driver and its states after the writes so far. -/
structure Run where
  dev : Device
  log : List Device

/-- `writeULong`, on the file of a limit: the text, its terminator and the rest of the buffer. -/
def writeULong (l : Limit) (val : BitVec 64) (r : Run) : Bool × Run :=
  if env.writes l then
    let dev := r.dev.store l (strtoumax (formatLong val ++ Char.ofNat 0 :: env.behind))
    (true, ⟨dev, r.log ++ [dev]⟩)
  else (false, ⟨r.dev, r.log ++ [r.dev]⟩)

/-- `status = status && ….writeULong(freq);` -/
def andWrite (l : Limit) (freq : BitVec 64) (p : Bool × Run) : Bool × Run :=
  if p.1 then writeULong env l freq p.2 else p

/-- The writes to the files of both limits. -/
def writeBoth (first second : Limit) (freq : BitVec 64) (dev : Device) : Bool × Run :=
  andWrite env second freq (andWrite env first freq (true, ⟨dev, []⟩))

/-- **`lockGpuFrequency`**: the status, and what became of the driver. -/
def lockGpuFrequency (freq : BitVec 64) (dev : Device) : Except String (Bool × Run) := do
  let curGpuFreq ← getGpuFrequency env
  openFile env (env.opens .max) Limit.max.filename
  openFile env (env.opens .min) Limit.min.filename
  if freq < curGpuFreq then return writeBoth env .min .max freq dev
  else return writeBoth env .max .min freq dev

/-- **The limits stay in order** after every write, and both are the requested frequency when the
call reports success. -/
def KeepsOrder (freq : BitVec 64) (out : Except String (Bool × Run)) : Prop :=
  ∀ status r, out = .ok (status, r) →
    (∀ dev ∈ r.log, dev.Ordered) ∧
    (status = true → r.dev.min_freq = freq ∧ r.dev.max_freq = freq)

/-! ### Numbers and their texts -/

theorem zero_not_digit (s : List Char) :
    ∀ c, (Char.ofNat 0 :: s).head? = some c → c.isDigit = false := by
  rintro c hc
  obtain rfl := Option.some.inj hc
  decide

/-- What is written is stored. -/
theorem writeULong_eq (l : Limit) (val : BitVec 64) (r : Run) : writeULong env l val r =
    if env.writes l then (true, ⟨r.dev.store l val, r.log ++ [r.dev.store l val]⟩)
    else (false, ⟨r.dev, r.log ++ [r.dev]⟩) := by
  rw [writeULong, strtoumax_formatLong (zero_not_digit env.behind)]

/-- **The text of a number**, with the end of its line. -/
theorem readULong_text {n : BitVec 64} (h : env.text = Nat.toDigits 10 n.toNat ++ ['\n']) :
    readULong env = if uintmaxMax = n then 1 else n := by
  have hne : env.text ≠ [] := by
    rw [h]
    simp
  have hnewline : ∀ c, ('\n' :: env.behind).head? = some c → c.isDigit = false := by
    rintro c hc
    obtain rfl := Option.some.inj hc
    decide
  rw [readULong, if_neg hne, h, List.append_assoc, List.singleton_append,
    strtoumax_toDigits hnewline n.isLt, BitVec.ofNat_toNat, BitVec.setWidth_eq]

/-- Nothing. -/
theorem readULong_nothing (h : env.text = []) : readULong env = 1 := if_pos h

/-- A text without a number. -/
theorem readULong_nonNumeric (h : NonNumeric env.text) : readULong env = 0 := by
  have hne : env.text ≠ [] := by
    intro hnil
    obtain ⟨c, t, hdrop, -⟩ := h
    rw [hnil] at hdrop
    cases hdrop
  rw [readULong, if_neg hne, strtoumax_nonNumeric h]
  rfl

/-! ### The order of the limits -/

variable {env} {freq : BitVec 64} {dev : Device}

/-- Both limits are the same value. -/
theorem store_store {first second : Limit} (h : first ≠ second) (dev : Device) (v : BitVec 64) :
    ((dev.store first v).store second v).min_freq = v ∧
      ((dev.store first v).store second v).max_freq = v := by
  cases first with
  | max =>
      cases second with
      | max => exact absurd rfl h
      | min => exact ⟨rfl, rfl⟩
  | min =>
      cases second with
      | max => exact ⟨rfl, rfl⟩
      | min => exact absurd rfl h

/-- **What two writes do to the order of the limits**: only the first one can disturb it. -/
theorem keepsOrder_writeBoth_iff {first second : Limit} (h : first ≠ second)
    (hdev : dev.Ordered) : KeepsOrder freq (.ok (writeBoth env first second freq dev)) ↔
      (env.writes first = true → (dev.store first freq).Ordered) := by
  obtain ⟨hmin, hmax⟩ := store_store h dev freq
  have hboth : ((dev.store first freq).store second freq).Ordered := by
    rw [Device.Ordered, hmin, hmax]
    exact BitVec.le_refl freq
  cases hfirst : env.writes first with
  | false =>
      have hrun : writeBoth env first second freq dev = (false, ⟨dev, [dev]⟩) := by
        simp [writeBoth, andWrite, writeULong_eq, hfirst]
      rw [hrun]
      refine iff_of_true ?_ nofun
      intro status r hr
      obtain ⟨rfl, rfl⟩ := Prod.mk.inj (Except.ok.inj hr)
      exact ⟨fun d hd => List.mem_singleton.1 hd ▸ hdev, nofun⟩
  | true =>
      obtain ⟨s₁, hs₁⟩ : ∃ s₁, s₁ = dev.store first freq := ⟨_, rfl⟩
      rw [← hs₁] at hmin hmax hboth ⊢
      constructor
      · intro hkeeps _
        have hlog : s₁ ∈ (writeBoth env first second freq dev).2.log := by
          cases hsecond : env.writes second with
          | false => simp [writeBoth, andWrite, writeULong_eq, hfirst, hsecond, hs₁]
          | true => simp [writeBoth, andWrite, writeULong_eq, hfirst, hsecond, hs₁]
        exact (hkeeps _ _ rfl).1 s₁ hlog
      · intro hordered status r hr
        have hs₁' := hordered rfl
        cases hsecond : env.writes second with
        | false =>
            have hrun : writeBoth env first second freq dev = (false, ⟨s₁, [s₁, s₁]⟩) := by
              simp [writeBoth, andWrite, writeULong_eq, hfirst, hsecond, hs₁]
            rw [hrun] at hr
            obtain ⟨rfl, rfl⟩ := Prod.mk.inj (Except.ok.inj hr)
            refine ⟨?_, nofun⟩
            simpa using hs₁'
        | true =>
            have hrun : writeBoth env first second freq dev =
                (true, ⟨s₁.store second freq, [s₁, s₁.store second freq]⟩) := by
              simp [writeBoth, andWrite, writeULong_eq, hfirst, hsecond, hs₁]
            rw [hrun] at hr
            obtain ⟨rfl, rfl⟩ := Prod.mk.inj (Except.ok.inj hr)
            refine ⟨?_, fun _ => ⟨hmin, hmax⟩⟩
            simpa using And.intro hs₁' hboth

/-- All three files can be opened. -/
def Environment.AllOpen (env : Environment) : Prop :=
  env.curOpens = true ∧ env.opens .max = true ∧ env.opens .min = true

theorem lockGpuFrequency_of_allOpen (h : env.AllOpen) :
    lockGpuFrequency env freq dev = .ok (if freq < readULong env
      then writeBoth env .min .max freq dev else writeBoth env .max .min freq dev) := by
  obtain ⟨hcur, hmax, hmin⟩ := h
  unfold lockGpuFrequency
  simp only [getGpuFrequency, openFile, hcur, hmax, hmin, if_true]
  split_ifs with hlt
  · exact if_pos hlt
  · exact if_neg hlt

/-- A call that returns has opened the files. -/
theorem allOpen_of_ok {out : Bool × Run} (h : lockGpuFrequency env freq dev = .ok out) :
    env.AllOpen := by
  unfold lockGpuFrequency getGpuFrequency at h
  cases hcur : env.curOpens with
  | false =>
      rw [hcur] at h
      cases h
  | true =>
      cases hmax : env.opens .max with
      | false =>
          rw [hcur, hmax] at h
          cases h
      | true =>
          cases hmin : env.opens .min with
          | false =>
              rw [hcur, hmax, hmin] at h
              cases h
          | true => exact ⟨hcur, hmax, hmin⟩

/-- **The order of the limits, by the number that was read.** -/
theorem keepsOrder_iff (hdev : dev.Ordered) :
    KeepsOrder freq (lockGpuFrequency env freq dev) ↔ (env.AllOpen →
      (freq < readULong env → env.writes .min = true → freq ≤ dev.max_freq) ∧
      (readULong env ≤ freq → env.writes .max = true → dev.min_freq ≤ freq)) := by
  by_cases hopen : env.AllOpen
  · rw [lockGpuFrequency_of_allOpen hopen]
    by_cases hlt : freq < readULong env
    · rw [if_pos hlt, keepsOrder_writeBoth_iff (by decide) hdev]
      refine ⟨fun h _ => ⟨fun _ => h, ?_⟩, fun h => (h hopen).1 hlt⟩
      exact fun hle => absurd hlt (BitVec.not_lt.2 hle)
    · rw [if_neg hlt, keepsOrder_writeBoth_iff (by decide) hdev]
      refine ⟨fun h _ => ⟨?_, fun _ => h⟩, fun h => (h hopen).2 (BitVec.not_lt.1 hlt)⟩
      exact fun hlt' => absurd hlt' hlt
  · refine iff_of_true ?_ fun h => absurd h hopen
    exact fun status r hr => absurd (allOpen_of_ok hr) hopen

/-- **Calls that read the current frequency** keep the limits in order. -/
theorem keepsOrder_of_read (hmin : dev.min_freq ≤ dev.cur_freq) (hmax : dev.cur_freq ≤ dev.max_freq)
    (hread : readULong env = dev.cur_freq) : KeepsOrder freq (lockGpuFrequency env freq dev) := by
  refine (keepsOrder_iff (BitVec.le_trans hmin hmax)).2 fun _ => ⟨?_, ?_⟩
  · rw [hread]
    exact fun hlt _ => BitVec.le_trans (BitVec.le_of_lt hlt) hmax
  · rw [hread]
    exact fun hle _ => BitVec.le_trans hmin hle

/-- Calls that read 1 instead. -/
theorem keepsOrder_iff_of_one (hdev : dev.Ordered) (hread : readULong env = 1) :
    KeepsOrder freq (lockGpuFrequency env freq dev) ↔
      (env.AllOpen → env.writes .max = true → freq = 0 ∨ dev.min_freq ≤ freq) := by
  rw [keepsOrder_iff hdev, hread]
  have hlt : freq < 1 ↔ freq = 0 := by
    rw [BitVec.lt_def, ← BitVec.toNat_inj]
    exact Nat.lt_one_iff
  have hle : 1 ≤ freq ↔ ¬freq = 0 := by rw [← BitVec.not_lt, hlt]
  rw [hlt, hle]
  refine forall_congr' fun _ => ⟨?_, ?_⟩
  · intro h hwrites
    by_cases hfreq : freq = 0
    · exact .inl hfreq
    · exact .inr (h.2 hfreq hwrites)
  · intro h
    refine ⟨?_, fun hfreq hwrites => (h hwrites).resolve_left hfreq⟩
    rintro rfl -
    exact BitVec.not_lt.1 BitVec.not_lt_zero

/-- Calls that read 0 instead. -/
theorem keepsOrder_iff_of_zero (hdev : dev.Ordered) (hread : readULong env = 0) :
    KeepsOrder freq (lockGpuFrequency env freq dev) ↔
      (env.AllOpen → env.writes .max = true → dev.min_freq ≤ freq) := by
  rw [keepsOrder_iff hdev, hread]
  have hnot : ¬freq < 0 := BitVec.not_lt_zero
  have hle : 0 ≤ freq := BitVec.not_lt.1 hnot
  exact forall_congr' fun _ => ⟨fun h => h.2 hle, fun h => ⟨fun hlt => absurd hlt hnot, fun _ => h⟩⟩

/-- **The calls that keep the limits in order**: in terms of the number that was read, and for a
read that delivers the current frequency, nothing, or a text without a number. -/
theorem lockGpuFrequency_keepsOrder_iff (env : Environment) (freq : BitVec 64) (dev : Device)
    (hmin : dev.min_freq ≤ dev.cur_freq) (hmax : dev.cur_freq ≤ dev.max_freq) :
    (KeepsOrder freq (lockGpuFrequency env freq dev) ↔ (env.AllOpen →
      (freq < readULong env → env.writes .min = true → freq ≤ dev.max_freq) ∧
      (readULong env ≤ freq → env.writes .max = true → dev.min_freq ≤ freq))) ∧
    (env.text = Nat.toDigits 10 dev.cur_freq.toNat ++ ['\n'] → dev.cur_freq ≠ uintmaxMax →
      KeepsOrder freq (lockGpuFrequency env freq dev)) ∧
    (env.text = [] → (KeepsOrder freq (lockGpuFrequency env freq dev) ↔
      (env.AllOpen → env.writes .max = true → freq = 0 ∨ dev.min_freq ≤ freq))) ∧
    (NonNumeric env.text → (KeepsOrder freq (lockGpuFrequency env freq dev) ↔
      (env.AllOpen → env.writes .max = true → dev.min_freq ≤ freq))) := by
  have hdev : dev.Ordered := BitVec.le_trans hmin hmax
  refine ⟨keepsOrder_iff hdev, ?_, ?_, ?_⟩
  · intro htext hne
    refine keepsOrder_of_read hmin hmax ?_
    rw [readULong_text env htext, if_neg hne.symm]
  · exact fun htext => keepsOrder_iff_of_one hdev (readULong_nothing env htext)
  · exact fun htext => keepsOrder_iff_of_zero hdev (readULong_nonNumeric env htext)

/-- An environment in which nothing fails but the read. -/
def unreadable : Environment where
  curOpens := true
  opens _ := true
  strerror := ""
  text := []
  behind := []
  writes _ := true

/-- A request above the current frequency. -/
theorem lockGpuFrequency_keepsOrder_iff_unreadable :
    KeepsOrder 900 (lockGpuFrequency unreadable 900 ⟨800, 800, 800⟩) :=
  ((lockGpuFrequency_keepsOrder_iff unreadable 900 ⟨800, 800, 800⟩ (by decide)
    (by decide)).2.2.1 rfl).2 fun _ _ => .inr (by decide)

/-- A request below the minimum, when the current frequency cannot be read. -/
theorem lockGpuFrequency_crosses : ¬∀ (env : Environment) (freq : BitVec 64) (dev : Device),
    dev.min_freq ≤ dev.cur_freq → dev.cur_freq ≤ dev.max_freq →
      KeepsOrder freq (lockGpuFrequency env freq dev) := by
  intro h
  have hkeeps := h unreadable 500 ⟨800, 800, 800⟩ (by decide) (by decide)
  have hordered : Device.Ordered ⟨800, 800, 800⟩ := BitVec.le_refl 800
  have hlimits := (keepsOrder_iff_of_one hordered (readULong_nothing unreadable rfl)).1 hkeeps
  exact absurd (hlimits ⟨rfl, rfl, rfl⟩ rfl) (by decide)

end GpuFrequency
