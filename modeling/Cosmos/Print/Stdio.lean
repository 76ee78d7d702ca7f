import Cosmos.Print.Uart

/-!
# `printf` and `getchar` (`lib/printf.c`)

Both take a block of memory, open the console, make one request, close the console and free the block. A request that
fails goes straight to the last of these steps, and the console stays open. So a call leaves the handle table as it was
exactly if it got no block or no handle, or if its request and its close both succeed (`stdio_handles_iff`).
-/

namespace Cosmos.Print

open Cosmos.Lib Halt Cosmos.Sve Function

/-! ### The library -/

def rwFlg : Nat := 0x3 <<< rwoFlgBits

def uartDevid (i : Nat) : UInt8 := if i = 0 then 15 else 0

/-- The answers of `mallocblk`, of `krlnew` and `krldelete` for the object node, and of `mfreeblk`. -/
structure Answers where
  blk : Option Nat
  node : Ans
  free : Bool

/-- `open(&dev, RW_FLG | FILE_TY_DEV, 0)`. -/
def openConsole (m : Machine) (a : Answers) : Halt (Int × Machine) :=
  krlsveCoreOpen m.sys uartDevid (rwFlg ||| fileTyDev) a.node >>= fun r => .ok (r.1, { m with sys := r.2 })

/-- How far a call got. -/
inductive Stage where
  | noBlk
  | noFd
  | failed
  | done (buf : Nat)

/-- What the two functions share: `io` is the request, made with the block and the handle. -/
def onConsole (d : Driver) (io : Nat → Int → Machine → Halt (Int × Machine)) (m : Machine) (a : Answers) :
    Halt (Stage × Machine) :=
  match a.blk with
  | none => .ok (.noBlk, m)
  | some buf =>
    openConsole m a >>= fun o =>
      if o.1 = -1 then .ok (.noFd, o.2)
      else io buf o.1 o.2 >>= fun w =>
        -- here the console stays open
        if w.1 = sysstuserr then .ok (.failed, w.2)
        else krlsveClose d w.2 o.1 a.node >>= fun c => .ok (.done buf, c.2)

def strlen (buf : List UInt8) : Nat := (buf.takeWhile (· ≠ 0)).length

def stored (m : Machine) (buf : Nat) (bytes : List UInt8) : Machine :=
  { m with mem := blit (fun i => bytes.getD i 0) m.mem buf bytes.length }

/-- The request of `printf`: `vsprintf` into the block of `0x1000` bytes, and a write. -/
def printfIo (d : Driver) (fmt : List UInt8) (args : List Nat) (buf : Nat) (fd : Int) (m : Machine) :
    Halt (Int × Machine) :=
  vsprintf m.mem fmt args 0x1000 >>= fun r =>
    krlsveWrite d (stored m buf r.1) fd buf (strlen r.1) 0

def printfRets (a : Answers) : Stage → Int
  | .noBlk => -1
  | .noFd => -1
  | .failed => -1
  | .done _ => if a.free = false then -1 else 0

def printf (d : Driver) (fmt : List UInt8) (args : List Nat) (m : Machine) (a : Answers) : Halt (Int × Machine) :=
  onConsole d (printfIo d fmt args) m a >>= fun r => .ok (printfRets a r.1, r.2)

def getcharIo (d : Driver) (buf : Nat) (fd : Int) (m : Machine) : Halt (Int × Machine) := krlsveRead d m fd buf 2 0

def getcharRets (m : Machine) (a : Answers) : Stage → UInt8
  | .noBlk => 0xff
  | .noFd => if a.free = false then 0 else 0xff
  | .failed => 0
  | .done buf => if a.free = false then 0 else m.mem buf

def getchar (d : Driver) (m : Machine) (a : Answers) : Halt (UInt8 × Machine) :=
  onConsole d (getcharIo d) m a >>= fun r => .ok (getcharRets r.2 a r.1, r.2)

/-! ### What a call leaves of the handle table -/

def Closes (d : Driver) (io : Nat → Int → Machine → Halt (Int × Machine)) (a : Answers) (o : Int × Machine) : Prop :=
  ∃ buf w c, a.blk = some buf ∧ io buf o.1 o.2 = .ok w ∧ w.1 = sysstusok ∧
    krlsveClose d w.2 o.1 a.node = .ok c ∧ c.1 = sysstusok

/-- The call got no block or no handle, or it closed what it opened. -/
def GivesBack (d : Driver) (io : Nat → Int → Machine → Halt (Int × Machine)) (m : Machine) (a : Answers) : Prop :=
  a.blk = none ∨ ∃ o, openConsole m a = .ok o ∧ (o.1 = noHand ∨ Closes d io a o)

section Handles

variable {d : Driver} {m : Machine} {a : Answers} {io : Nat → Int → Machine → Halt (Int × Machine)}

/-- A request keeps the handle table and leaves the console open. -/
def Serves (io : Nat → Int → Machine → Halt (Int × Machine)) : Prop :=
  ∀ ⦃buf hand ondp devp m w⦄, Holds m.sys hand ondp devp → io buf (Fin.val hand) m = .ok w →
    (w.1 = sysstusok ∨ w.1 = sysstuserr) ∧ w.2.sys.tdHandtbl = m.sys.tdHandtbl ∧ Holds w.2.sys hand ondp devp

theorem serves_getcharIo : Serves (getcharIo d) := by
  intro buf hand ondp devp m w h hw
  unfold getcharIo krlsveRead at hw
  split_ifs at hw
  · cases hw
    exact ⟨.inr rfl, rfl, h⟩
  · exact request_of_holds h hw

theorem serves_printfIo (fmt : List UInt8) (args : List Nat) : Serves (printfIo d fmt args) := by
  intro buf hand ondp devp m w h hw
  obtain ⟨r, -, hw⟩ := bind_eq_ok hw
  unfold krlsveWrite at hw
  split_ifs at hw
  · cases hw
    exact ⟨.inr rfl, rfl, h⟩
  · exact request_of_holds (m := stored m buf r.1) h hw

theorem openConsole_cases {o : Int × Machine} (ho : openConsole m a = .ok o) :
    o.1 = noHand ∧ o.2.sys.tdHandtbl = m.sys.tdHandtbl ∨
      ∃ hand ondp devp, OpenedDevice m.sys (devidAt uartDevid) (o.1, o.2.sys) hand ondp devp := by
  obtain ⟨r, hr, ho⟩ := bind_eq_ok ho
  cases ho
  rw [krlsveCoreOpen, if_pos (by decide)] at hr
  exact opDevStep_cases hr

theorem update_some_ne {s : Sys} {hand : Fin tdHandMax} (ondp : Nat) (hfree : s.tdHandtbl hand = none) :
    update s.tdHandtbl hand (some ondp) ≠ s.tdHandtbl := fun h => by
  have hhand := congrFun h hand
  rw [update_self, hfree] at hhand
  cases hhand

theorem afterOpen_handles_iff {m₁ : Machine} {hand : Fin tdHandMax} {ondp devp buf : Nat} {r : Stage × Machine}
    (hio : Serves io) (hblk : a.blk = some buf) (hfree : m.sys.tdHandtbl hand = none)
    (htbl : m₁.sys.tdHandtbl = update m.sys.tdHandtbl hand (some ondp)) (hholds : Holds m₁.sys hand ondp devp)
    (hr : (io buf hand.val m₁ >>= fun w => if w.1 = sysstuserr then .ok (.failed, w.2)
      else krlsveClose d w.2 hand.val a.node >>= fun c => .ok (.done buf, c.2)) = Except.ok r) :
    r.2.sys.tdHandtbl = m.sys.tdHandtbl ↔ Closes d io a (hand.val, m₁) := by
  have hlost := update_some_ne ondp hfree
  obtain ⟨w, hw, hr⟩ := bind_eq_ok hr
  obtain ⟨hanswer, hwtbl, hwholds⟩ := hio hholds hw
  have hcloses : Closes d io a (hand.val, m₁) ↔
      w.1 = sysstusok ∧ ∃ c, krlsveClose d w.2 hand.val a.node = .ok c ∧ c.1 = sysstusok := by
    constructor
    · rintro ⟨buf', w', c, hbuf', hw', hok, hc⟩
      cases hblk.symm.trans hbuf'
      cases hw.symm.trans hw'
      exact ⟨hok, c, hc⟩
    · rintro ⟨hok, c, hc⟩
      exact ⟨buf, w, c, hblk, hw, hok, hc⟩
  rw [hcloses]
  split_ifs at hr with hfails
  · -- the request failed, and nobody closes
    cases hr
    refine iff_of_false ?_ fun h => ?_
    · rw [hwtbl, htbl]
      exact hlost
    · cases hfails.symm.trans h.1
  · obtain ⟨c, hc, hr⟩ := bind_eq_ok hr
    cases hr
    rcases krlsveClose_of_holds hwholds hc with ⟨hok, hctbl⟩ | ⟨herr, hctbl⟩
    · refine iff_of_true ?_ ⟨hanswer.resolve_right hfails, c, hc, hok⟩
      rw [hctbl, hwtbl, htbl, update_idem, ← hfree, update_eq_self]
    · -- the answer of the close is not looked at
      refine iff_of_false ?_ ?_
      · rw [hctbl, hwtbl, htbl]
        exact hlost
      · rintro ⟨-, c', hc', hok⟩
        cases hc.symm.trans hc'
        cases herr.symm.trans hok

theorem onConsole_handles_iff {r : Stage × Machine} (hio : Serves io) (hr : onConsole d io m a = .ok r) :
    r.2.sys.tdHandtbl = m.sys.tdHandtbl ↔ GivesBack d io m a := by
  unfold onConsole at hr
  cases hblk : a.blk with
  | none =>
    rw [hblk] at hr
    cases hr
    exact iff_of_true rfl (.inl hblk)
  | some buf =>
    rw [hblk] at hr
    dsimp only at hr
    obtain ⟨⟨fd, m₁⟩, ho, hr⟩ := bind_eq_ok hr
    dsimp only at hr
    have hgives : GivesBack d io m a ↔ fd = noHand ∨ Closes d io a (fd, m₁) := by
      constructor
      · rintro (hnone | ⟨o, ho', h⟩)
        · cases hblk.symm.trans hnone
        · cases ho.symm.trans ho'
          exact h
      · exact fun h => .inr ⟨_, ho, h⟩
    rw [hgives]
    rcases openConsole_cases ho with ⟨hno, htbl⟩ | ⟨hand, ondp, devp, hopened⟩
    · rw [if_pos (show fd = -1 from hno)] at hr
      cases hr
      exact iff_of_true htbl (.inl hno)
    · obtain rfl : fd = hand.val := hopened.fd
      have hne := hand_ne_noHand hand
      rw [if_neg (show ¬(hand.val : Int) = -1 from hne)] at hr
      rw [or_iff_right hne]
      exact afterOpen_handles_iff hio hblk hopened.free hopened.tbl hopened.holds hr

theorem printf_handles_iff {fmt : List UInt8} {args : List Nat} {r : Int × Machine}
    (hr : printf d fmt args m a = .ok r) :
    r.2.sys.tdHandtbl = m.sys.tdHandtbl ↔ GivesBack d (printfIo d fmt args) m a := by
  obtain ⟨x, hrun, hr⟩ := bind_eq_ok hr
  cases hr
  exact onConsole_handles_iff (serves_printfIo fmt args) hrun

theorem getchar_handles_iff {r : UInt8 × Machine} (hr : getchar d m a = .ok r) :
    r.2.sys.tdHandtbl = m.sys.tdHandtbl ↔ GivesBack d (getcharIo d) m a := by
  obtain ⟨x, hrun, hr⟩ := bind_eq_ok hr
  cases hr
  exact onConsole_handles_iff serves_getcharIo hrun

end Handles

/-- **`printf` and `getchar` leave the handle table as it was exactly if they got no block of memory or no handle, or
if their request and their close both succeed**, whatever the driver does. -/
theorem stdio_handles_iff (d : Driver) (fmt : List UInt8) (args : List Nat) (m : Machine) (a : Answers) :
    (∀ r, printf d fmt args m a = .ok r →
      (r.2.sys.tdHandtbl = m.sys.tdHandtbl ↔ GivesBack d (printfIo d fmt args) m a)) ∧
    ∀ r, getchar d m a = .ok r → (r.2.sys.tdHandtbl = m.sys.tdHandtbl ↔ GivesBack d (getcharIo d) m a) :=
  ⟨fun _ hr => printf_handles_iff hr, fun _ hr => getchar_handles_iff hr⟩

/-! ### Any number of calls -/

inductive Call where
  | printf (fmt : List UInt8) (args : List Nat) (a : Answers)
  | getchar (a : Answers)

def Call.run (d : Driver) (m : Machine) : Call → Halt Machine
  | .printf fmt args a => Print.printf d fmt args m a >>= fun r => .ok r.2
  | .getchar a => Print.getchar d m a >>= fun r => .ok r.2

def Call.GivesBack (d : Driver) (m : Machine) : Call → Prop
  | .printf fmt args a => Print.GivesBack d (printfIo d fmt args) m a
  | .getchar a => Print.GivesBack d (getcharIo d) m a

theorem Call.tdHandtbl_of_run {d : Driver} {m m' : Machine} {c : Call} (hgives : c.GivesBack d m)
    (hrun : c.run d m = .ok m') : m'.sys.tdHandtbl = m.sys.tdHandtbl := by
  cases c with
  | printf fmt args a =>
    obtain ⟨r, hr, hm'⟩ := bind_eq_ok hrun
    cases hm'
    exact (printf_handles_iff hr).mpr hgives
  | getchar a =>
    obtain ⟨r, hr, hm'⟩ := bind_eq_ok hrun
    cases hm'
    exact (getchar_handles_iff hr).mpr hgives

/-- **Any number of calls that each give their handle back leave the handle table as it was.** -/
theorem handles_of_calls {d : Driver} {m m' : Machine} {cs : List Call}
    (hrun : Trace (fun m c m' => c.GivesBack d m ∧ c.run d m = .ok m') m cs m') :
    m'.sys.tdHandtbl = m.sys.tdHandtbl :=
  hrun.keeps (J := fun m' => m'.sys.tdHandtbl = m.sys.tdHandtbl)
    (fun _ _ _ hkept hstep => (Call.tdHandtbl_of_run hstep.1 hstep.2).trans hkept) rfl

/-- A console nobody has opened, one key that was pressed, and nothing in the memory of the process. -/
def console : Machine where
  sys := oneDevice 15 .uartOpen Rfs.ramDev
  mem := fun _ => 0
  kbd := ⟨1, fun _ => 30⟩
  shown := []
  reads := 0

def granted (ondp : Nat) : Answers := ⟨some 0x1000, ⟨some ondp, true⟩, true⟩

/-- "a" is printed, or a key is read, and the handle table is empty again. -/
theorem stdio_gives_back :
    (∃ r, printf uart [97] [] console (granted 2) = .ok r ∧ r.1 = 0 ∧ r.2.sys.tdHandtbl = console.sys.tdHandtbl) ∧
      ∃ r, getchar uart console (granted 2) = .ok r ∧ r.1 = 30 ∧ r.2.sys.tdHandtbl = console.sys.tdHandtbl := by
  have h := stdio_handles_iff uart [97] [] console (granted 2)
  constructor
  · exact ⟨_, rfl, rfl, (h.1 _ rfl).mpr (.inr ⟨_, rfl, .inr ⟨0x1000, _, _, rfl, rfl, rfl, rfl, rfl⟩⟩)⟩
  · exact ⟨_, rfl, rfl, (h.2 _ rfl).mpr (.inr ⟨_, rfl, .inr ⟨0x1000, _, _, rfl, rfl, rfl, rfl, rfl⟩⟩)⟩

/-- After eight times `printf("")` the handle table is full, and the console cannot be opened again. -/
theorem printf_nothing_exhausts :
    ∃ m, runHalt (Call.run uart) console ((List.range 8).map fun k => .printf [] [] (granted (2 + k))) = .ok m ∧
      (∀ hand, console.sys.tdHandtbl hand = none) ∧ (∀ hand, m.sys.tdHandtbl hand ≠ none) ∧
      ∃ o, openConsole m (granted 10) = .ok o ∧ o.1 = noHand := by
  have hrun : Except.map (fun m : Machine => decide ((∀ hand, m.sys.tdHandtbl hand ≠ none) ∧
      Except.map Prod.fst (openConsole m (granted 10)) = .ok noHand))
      (runHalt (Call.run uart) console ((List.range 8).map fun k => .printf [] [] (granted (2 + k)))) = .ok true := by
    decide +kernel
  obtain ⟨m, hm, hdecide⟩ := exists_of_map hrun
  obtain ⟨hfull, hopen⟩ := of_decide_eq_true hdecide
  exact ⟨m, hm, fun _ => rfl, hfull, exists_of_map hopen⟩

end Cosmos.Print
