import Cosmos.Space.Accounting

/-!
# Demand loading of the program

`krlthread_execvl` maps a program file of length `L` at `APPRUN_START_VITRUALADDR` as an interval of type
`KMV_BIN_TYPE`; a page fault in it copies a page of the file. `vma_full_textbin` counts the offset in the file from
the start that the interval has at the time of the fault, and always copies a whole page.
-/

namespace Cosmos.Space

open Cosmos.Lib Cosmos.Page Cosmos.Mmu Cosmos.Vma Kmvarsdsc

variable {A : PageAlloc} {L : Lawful A} {image : Nat → UInt8} {s t : Sys A} {rest : List Blk} {i v a : Nat}
  {newbox : Option Nat} {k : Kmvarsdsc} {filevadr filesize : Nat}

def apprunStartVitrualaddr : Nat := 0x100000

def Sys.byte (s : Sys A) (i a : Nat) : UInt8 := UInt8.ofNat (s.mem (s.look i a) (a % 0x1000 / 8) / 256 ^ (a % 8))

/-- The offset in the file from which `vma_full_textbin` copies a page. -/
def textbinOffset (kmvd : Kmvarsdsc) (vadr : Nat) : Nat := (vadr - kmvd.kvaStart) / 0x1000 * 0x1000

def textbinSource (filevadr : Nat) (kmvd : Kmvarsdsc) (vadr : Nat) : Nat := u64 (filevadr + textbinOffset kmvd vadr)

/-- The page of `v` holds the program's own image, and the loader read bytes of the file only. -/
structure LoadsImage (image : Nat → UInt8) (filevadr filesize : Nat) (k : Kmvarsdsc) (t : Sys A) (i v : Nat) :
    Prop where
  holds : ∀ a, a / 0x1000 = v / 0x1000 → apprunStartVitrualaddr ≤ a → a < apprunStartVitrualaddr + filesize →
    t.byte i a = image (filevadr + (a - apprunStartVitrualaddr))
  reads : filevadr ≤ textbinSource filevadr k v ∧ textbinSource filevadr k v + 0x1000 ≤ filevadr + filesize

theorem imagePage_byte (src : Nat) : UInt8.ofNat (imagePage image src (a % 0x1000 / 8) / 256 ^ (a % 8)) =
    image (src + a % 0x1000) := by
  rw [imagePage, getWord_div (by omega)]
  congr 1
  omega

/-- **What a fault in the program's interval leaves** on the page: a page of the file, from the offset that the start of
the interval gives. -/
theorem byte_of_fault {frames : List Nat} (h : Inv L s frames rest) (hi : i < s.mmnr) (hfresh : FreshBox s newbox)
    (hthread : (s.mm i).msdThread = some (filevadr, filesize)) (hk : k ∈ (s.vma i).vsList) (hlo : k.kvaStart ≤ v)
    (hhi : v < k.kvaEnd) (hbin : k.kvaMaptype = kmvBinType)
    (hret : vmaMapFairvadrs image s i v newbox = .ok (0, t)) :
    v < 2 ^ 47 ∧ ∀ a, a / 0x1000 = v / 0x1000 → t.byte i a = image (textbinSource filevadr k v + a % 0x1000) := by
  rcases vmaMapFairvadrs_cases h hi hfresh hret with
    ⟨hne, -⟩ | ⟨pre, k', post, b, s₁, hv, hsplit, hlo', hhi', ha, hinv, -, ⟨hne, -⟩ | ⟨-, msa, t₁, hm, hfull⟩⟩
  · exact absurd rfl hne
  · exact absurd hne (by decide)
  have hk' : k' ∈ (s.vma i).vsList := by
    rw [hsplit.eq]
    simp
  obtain rfl := eq_of_covers (h.reached i hi) hk hk' hlo hhi hlo' hhi'
  have hi₁ : i < s₁.mmnr := ha.mmnr_eq ▸ hi
  obtain ⟨-, hquiet, -, hlook₁, hlook, -⟩ := hinv.maps hi₁ hv hm hfull
  have hthread₁ : (t₁.mm i).msdThread = some (filevadr, filesize) := by
    rw [hm.quiet.thread, ha.thread_eq, hthread]
  -- what was written
  have hwritten : t.mem (s₁.addr msa) = imagePage image (textbinSource filevadr k v) := by
    unfold vmaFullTextbin at hfull
    simp only [if_neg (show ¬k.kvaMaptype ≠ kmvBinType from fun hne => hne hbin), hthread₁] at hfull
    split_ifs at hfull
    obtain rfl := Except.ok.inj hfull
    rw [← hlook₁]
    exact Function.update_self ..
  refine ⟨hv, fun a hpage => ?_⟩
  rw [Sys.byte, hlook i hi₁ a (by omega), if_pos ⟨rfl, hpage⟩, hwritten, imagePage_byte]

theorem textbinSource_inside_iff (hfile : filevadr + filesize ≤ 2 ^ 64) (hv : v < 2 ^ 47) :
    (filevadr ≤ textbinSource filevadr k v ∧ textbinSource filevadr k v + 0x1000 ≤ filevadr + filesize) ↔
      textbinOffset k v + 0x1000 ≤ filesize := by
  have hoff : textbinOffset k v < 2 ^ 47 := by
    unfold textbinOffset
    omega
  unfold textbinSource u64
  constructor
  · rintro ⟨hlo, hhi⟩
    by_cases hwrap : filevadr + textbinOffset k v < 2 ^ 64
    · omega
    · omega
  · intro hinside
    omega

/-- **Demand loading gives the program its own image** exactly when the page that is copied lies in the file and the
interval starts where the program was mapped, or the file holds the same bytes at both offsets. -/
theorem loadsImage_iff {cs : List Call} (h : Ran L image cs s rest) (hcs : ∀ c ∈ cs, c.NoWrap) (hi : i < s.mmnr)
    (hfresh : FreshBox s newbox) (hthread : (s.mm i).msdThread = some (filevadr, filesize))
    (hfile : filevadr + filesize ≤ 2 ^ 64) (hk : k ∈ (s.vma i).vsList) (hlo : k.kvaStart ≤ v) (hhi : v < k.kvaEnd)
    (hbin : k.kvaMaptype = kmvBinType) (hret : vmaMapFairvadrs image s i v newbox = .ok (0, t)) :
    LoadsImage image filevadr filesize k t i v ↔
      textbinOffset k v + 0x1000 ≤ filesize ∧ (k.kvaStart = apprunStartVitrualaddr ∨
        ∀ a, a / 0x1000 = v / 0x1000 → apprunStartVitrualaddr ≤ a → a < apprunStartVitrualaddr + filesize →
          image (filevadr + (textbinOffset k v + a % 0x1000)) = image (filevadr + (a - apprunStartVitrualaddr))) := by
  obtain ⟨frames, hinv, -⟩ := inv_of_run h hcs
  obtain ⟨hv, hbyte⟩ := byte_of_fault hinv hi hfresh hthread hk hlo hhi hbin hret
  have hinside := textbinSource_inside_iff (k := k) hfile hv
  have hsource : textbinOffset k v + 0x1000 ≤ filesize →
      textbinSource filevadr k v = filevadr + textbinOffset k v := fun hle => u64_of_lt (by omega)
  constructor
  · rintro ⟨hholds, hreads⟩
    have hle := hinside.mp hreads
    refine ⟨hle, .inr fun a hpage hstart hend => ?_⟩
    rw [← hholds a hpage hstart hend, hbyte a hpage, hsource hle, Nat.add_assoc]
  · rintro ⟨hle, hsame⟩
    refine ⟨fun a hpage hstart hend => ?_, hinside.mpr hle⟩
    rw [hbyte a hpage, hsource hle, Nat.add_assoc]
    rcases hsame with heq | hsame
    · have harg : textbinOffset k v + a % 0x1000 = a - apprunStartVitrualaddr := by
        unfold textbinOffset
        unfold apprunStartVitrualaddr at heq hstart ⊢
        omega
      rw [harg]
    · exact hsame a hpage hstart hend

/-- A program of three pages whose file has a mark at the start of the second page. -/
def markedImage (filevadr : Nat) (x : Nat) : UInt8 := if x = filevadr + 0x1000 then 1 else 0

def execvl (filevadr : Nat) : List Call :=
  [.create 0 (some 1) (some 2) (some 3) (some (filevadr, 0x3000)), .newVadrs 0 0x100000 0x3000 0 kmvBinType (some 4)]

/-- The second page of the program is loaded. -/
theorem loadsImage_page : ∃ s t : Sys bump, ∃ k ∈ (s.vma 0).vsList,
    Ran bumpLawful (markedImage 0xffff800000200000) (execvl 0xffff800000200000) s [] ∧
    vmaMapFairvadrs (markedImage 0xffff800000200000) s 0 0x101234 (some 9) = .ok (0, t) ∧
    LoadsImage (markedImage 0xffff800000200000) 0xffff800000200000 0x3000 k t 0 0x101234 ∧ t.byte 0 0x101000 = 1 := by
  obtain ⟨s, hrun, hs⟩ := Halt.exists_of_map
    (x := runCalls (markedImage 0xffff800000200000) (bootSys (A := bump) (0 : Nat)) (execvl 0xffff800000200000))
    (f := fun s => (decide (0 < s.mmnr ∧ FreshBox s (some 9) ∧ (s.mm 0).msdThread = some (0xffff800000200000, 0x3000)),
      (vmaMapFindKmvarsdsc (s.vma 0) 0x101234).map fun k => (k.kvaStart, k.kvaMaptype),
      Except.map Prod.fst (vmaMapFairvadrs (markedImage 0xffff800000200000) s 0 0x101234 (some 9))))
    (b := (true, some (0x100000, kmvBinType), .ok 0)) (by decide +kernel)
  obtain ⟨hok, hs⟩ := Prod.mk.inj hs
  obtain ⟨hfind, hmap⟩ := Prod.mk.inj hs
  obtain ⟨hi, hfresh, hthread⟩ := of_decide_eq_true hok
  obtain ⟨k, hfind, hk⟩ := Option.map_eq_some_iff.mp hfind
  obtain ⟨hstart, hbin⟩ := Prod.mk.inj hk
  obtain ⟨hmem, hlo, hhi⟩ := vmaMapFindKmvarsdsc_spec hfind
  obtain ⟨⟨ret, t⟩, hret, rfl⟩ := Halt.exists_of_map hmap
  have hran : Ran bumpLawful (markedImage 0xffff800000200000) (execvl 0xffff800000200000) s [] :=
    ran_of_runCalls bump_empty hrun
  have hloads := (loadsImage_iff hran (by simp +decide [execvl, Call.NoWrap]) hi hfresh hthread (by decide) hmem hlo hhi
    hbin hret).mpr ⟨by rw [textbinOffset, hstart]; decide, .inl hstart⟩
  exact ⟨s, t, k, hmem, hran, hret, hloads, hloads.holds 0x101000 (by decide) (by decide) (by decide)⟩

/-- The first page of the program is given back. The second one then gets the bytes of the first. -/
theorem wrong_page_of_front_trim : ∃ s t : Sys bump, ∃ k ∈ (s.vma 0).vsList,
    Ran bumpLawful (markedImage 0xffff800000200000)
      (execvl 0xffff800000200000 ++ [.delVadrs 0 0x100000 0x1000 none]) s [] ∧
    vmaMapFairvadrs (markedImage 0xffff800000200000) s 0 0x101000 (some 9) = .ok (0, t) ∧
    k.kvaStart ≤ 0x101000 ∧ 0x101000 < k.kvaEnd ∧ k.kvaMaptype = kmvBinType ∧
    ¬LoadsImage (markedImage 0xffff800000200000) 0xffff800000200000 0x3000 k t 0 0x101000 := by
  obtain ⟨s, hrun, hs⟩ := Halt.exists_of_map
    (x := runCalls (markedImage 0xffff800000200000) (bootSys (A := bump) (0 : Nat))
      (execvl 0xffff800000200000 ++ [.delVadrs 0 0x100000 0x1000 none]))
    (f := fun s => ((vmaMapFindKmvarsdsc (s.vma 0) 0x101000).map fun k => k.kvaMaptype,
      Except.map (fun r => (r.1, r.2.byte 0 0x101000))
        (vmaMapFairvadrs (markedImage 0xffff800000200000) s 0 0x101000 (some 9))))
    (b := (some kmvBinType, .ok (0, 0))) (by decide +kernel)
  obtain ⟨hfind, hmap⟩ := Prod.mk.inj hs
  obtain ⟨k, hfind, hbin⟩ := Option.map_eq_some_iff.mp hfind
  obtain ⟨hmem, hlo, hhi⟩ := vmaMapFindKmvarsdsc_spec hfind
  obtain ⟨⟨ret, t⟩, hret, ht⟩ := Halt.exists_of_map hmap
  obtain ⟨rfl, hbyte⟩ := Prod.mk.inj ht
  refine ⟨s, t, k, hmem, ran_of_runCalls bump_empty hrun, hret, hlo, hhi, hbin, fun hloads => ?_⟩
  have hone : t.byte 0 0x101000 = 1 := hloads.holds 0x101000 rfl (by decide) (by decide)
  rw [hbyte] at hone
  cases hone

end Cosmos.Space
