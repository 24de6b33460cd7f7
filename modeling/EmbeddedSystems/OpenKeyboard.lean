import EmbeddedSystems.Scan

/-! `openkeyboard` goes through the devices on the bus, their interfaces and the alternate settings
of these, opens the first one that speaks the keyboard protocol and claims its interface. The
inner loop counts with an `uint8_t` up to an `int`, so it goes round for ever on an interface of
256 or more settings if none of the first 256 is a keyboard. What libusb returns is a parameter. -/

namespace EmbeddedSystems
namespace UsbKeyboard

open Scan

def classPerInterface : UInt8 := 0
def classHid : UInt8 := 3
def usbHidKeyboardProtocol : UInt8 := 1

/-- The fields of `libusb_interface_descriptor` that are read, with the `bEndpointAddress` of
each endpoint. -/
structure InterfaceDescriptor where
  bInterfaceClass : UInt8
  bInterfaceProtocol : UInt8
  endpoint : List UInt8
  deriving DecidableEq

/-- The alternate settings of each interface; `bNumInterfaces` is an `uint8_t`. -/
structure Config where
  interface : List (List InterfaceDescriptor)
  bNumInterfaces_lt : interface.length < 256

structure Device where
  getDeviceDescriptor : ℤ
  bDeviceClass : UInt8
  getConfigDescriptor : Option Config
  libusbOpen : ℤ
  kernelDriverActive : ℕ → ℤ
  claimInterface : ℕ → ℤ

structure Bus where
  libusbInit : ℤ
  getDeviceList : Option (List Device)

inductive Call
  | libusbOpen (d : ℕ)
  | detachKernelDriver (d i : ℕ)
  | setAutoDetachKernelDriver (d : ℕ) (enable : Bool)
  | claimInterface (d i : ℕ)
  | freeDeviceList
  deriving DecidableEq

inductive Failure
  | libusbInit
  | getDeviceList
  | getDeviceDescriptor
  | libusbOpen (r : ℤ)
  | claimInterface (r : ℤ)
  deriving DecidableEq

/-- How `openkeyboard` ends: with the handle of device `d` and the endpoint, with `NULL`, with an
error message and `exit(1)`, or in a read through a pointer that was never set. -/
inductive Outcome
  | keyboard (d i : ℕ) (endpointAddress : UInt8)
  | null
  | exit (e : Failure)
  | undefined
  deriving DecidableEq

structure Run where
  calls : List Call
  outcome : Outcome
  deriving DecidableEq

def InterfaceDescriptor.isKeyboard (inter : InterfaceDescriptor) : Bool :=
  inter.bInterfaceClass = classHid && inter.bInterfaceProtocol = usbHidKeyboardProtocol

/-- The loop over the alternate settings, with its counter `k`. -/
def altLoop (altsetting : List InterfaceDescriptor) :
    ℕ → UInt8 → Option (Option InterfaceDescriptor)
  | 0, _ => none
  | fuel+1, k =>
    match altsetting[k.toNat]? with
    | none => some none
    | some inter =>
      if inter.isKeyboard then some (some inter) else altLoop altsetting fuel (k+1)

def interfaceBody (fuel i : ℕ) (altsetting : List InterfaceDescriptor) :
    Option (Option (ℕ × InterfaceDescriptor)) :=
  (altLoop altsetting fuel 0).map fun o => o.map fun inter => (i,inter)

/-- Open device `d`, take its interface `i` from the kernel and claim it. The second argument of
`libusb_set_auto_detach_kernel_driver` is a flag; the code passes the number of the interface. -/
def claim (dev : Device) (d i : ℕ) (inter : InterfaceDescriptor) : Run :=
  if dev.libusbOpen ≠ 0 then ⟨[.libusbOpen d],.exit (.libusbOpen dev.libusbOpen)⟩
  else
    let calls := [.libusbOpen d] ++
      (if dev.kernelDriverActive i ≠ 0 then [.detachKernelDriver d i] else []) ++
      [.setAutoDetachKernelDriver d (i ≠ 0),.claimInterface d i]
    if dev.claimInterface i ≠ 0 then ⟨calls,.exit (.claimInterface (dev.claimInterface i))⟩
    else
      match inter.endpoint with
      | [] => ⟨calls,.undefined⟩
      | endpointAddress::_ => ⟨calls ++ [.freeDeviceList],.keyboard d i endpointAddress⟩

def deviceBody (fuel d : ℕ) (dev : Device) : Option (Option Run) :=
  if dev.getDeviceDescriptor < 0 then some (some ⟨[],.exit .getDeviceDescriptor⟩)
  else if dev.bDeviceClass = classPerInterface then
    match dev.getConfigDescriptor with
    | none => some (some ⟨[],.undefined⟩)
    | some config =>
      (scan (interfaceBody fuel) config.interface 0).map fun o =>
        o.map fun p => claim dev d p.1 p.2
  else some none

def openkeyboard (fuel : ℕ) (bus : Bus) : Option Run :=
  if bus.libusbInit < 0 then some ⟨[],.exit .libusbInit⟩
  else
    match bus.getDeviceList with
    | none => some ⟨[],.exit .getDeviceList⟩
    | some devs =>
      (scan (deviceBody fuel) devs 0).map fun o => o.getD ⟨[.freeDeviceList],.null⟩

section Settings

variable {altsetting : List InterfaceDescriptor}

/-- The settings that `k` reaches before it wraps. -/
def looked (altsetting : List InterfaceDescriptor) : List InterfaceDescriptor :=
  altsetting.take 256

theorem looked_length (altsetting : List InterfaceDescriptor) :
    (looked altsetting).length = min 256 altsetting.length := List.length_take

theorem looked_getElem? {k : ℕ} (hk : k < 256) : (looked altsetting)[k]? = altsetting[k]? := by
  rw [looked,List.getElem?_take,if_pos hk]

theorem toNat_ofNat {k : ℕ} (hk : k < 256) : (UInt8.ofNat k).toNat = k := by
  rw [UInt8.toNat_ofNat']
  exact Nat.mod_eq_of_lt hk

theorem altLoop_hit {fuel k : ℕ} {inter : InterfaceDescriptor}
    (h : ((looked altsetting).drop k).find? InterfaceDescriptor.isKeyboard = some inter)
    (hfuel : 256 < fuel+k) : altLoop altsetting fuel (UInt8.ofNat k) = some (some inter) := by
  have hlen := looked_length altsetting
  have hk : k < (looked altsetting).length := by
    by_contra hge
    rw [List.drop_eq_nil_of_le (not_lt.mp hge)] at h
    exact absurd h (by simp)
  induction fuel generalizing k with
  | zero => omega
  | succ fuel ih =>
    have hnat := toNat_ofNat (by omega : k < 256)
    have hget : altsetting[k]? = some (looked altsetting)[k] := by
      rw [← looked_getElem? (by omega),List.getElem?_eq_getElem hk]
    rw [List.drop_eq_getElem_cons hk] at h
    rw [altLoop,hnat,hget]
    by_cases hkey : (looked altsetting)[k].isKeyboard
    · rw [List.find?_cons_of_pos hkey] at h
      simp only [hkey,if_true]
      rw [h]
    · rw [List.find?_cons_of_neg hkey] at h
      have hk' : k+1 < (looked altsetting).length := by
        by_contra hge
        rw [List.drop_eq_nil_of_le (not_lt.mp hge)] at h
        exact absurd h (by simp)
      have hrest := ih h (by omega) hk'
      rw [UInt8.ofNat_add] at hrest
      simpa [hkey] using hrest

theorem altLoop_miss {fuel k : ℕ} (h : ∀ inter ∈ altsetting, ¬inter.isKeyboard = true)
    (hlen : altsetting.length < 256) (hk : k ≤ altsetting.length) (hfuel : 256 < fuel+k) :
    altLoop altsetting fuel (UInt8.ofNat k) = some none := by
  induction fuel generalizing k with
  | zero => omega
  | succ fuel ih =>
    have hnat := toNat_ofNat (by omega : k < 256)
    rw [altLoop,hnat]
    rcases Nat.lt_or_eq_of_le hk with hlt | heq
    · have hkey := h _ (List.getElem_mem hlt)
      rw [List.getElem?_eq_getElem hlt]
      have hrest := ih (k := k+1) hlt (by omega)
      rw [UInt8.ofNat_add] at hrest
      simpa [hkey] using hrest
    · rw [List.getElem?_eq_none (by omega)]

/-- Without a keyboard among the first 256 of at least that many settings the counter goes round
and round. -/
theorem altLoop_endless (h : ∀ inter ∈ looked altsetting, ¬inter.isKeyboard = true)
    (hlen : 256 ≤ altsetting.length) (fuel : ℕ) (k : UInt8) : altLoop altsetting fuel k = none := by
  induction fuel generalizing k with
  | zero => rfl
  | succ fuel ih =>
    have hk := k.toNat_lt
    have hlt : k.toNat < (looked altsetting).length := by
      rw [looked_length]
      omega
    have hkey := h _ (List.getElem_mem hlt)
    rw [altLoop,← looked_getElem? hk,List.getElem?_eq_getElem hlt]
    simpa [hkey] using ih (k+1)

theorem altLoop_eq {fuel : ℕ} (hfuel : 257 ≤ fuel) :
    altLoop altsetting fuel 0 =
      match (looked altsetting).find? InterfaceDescriptor.isKeyboard with
      | some inter => some (some inter)
      | none => if altsetting.length < 256 then some none else none := by
  cases hfind : (looked altsetting).find? InterfaceDescriptor.isKeyboard with
  | some inter => exact altLoop_hit (k := 0) hfind (by omega)
  | none =>
    have hnone := List.find?_eq_none.mp hfind
    by_cases hlen : altsetting.length < 256
    · rw [looked,List.take_of_length_le (by omega)] at hnone
      simp only [hlen,if_true]
      exact altLoop_miss (k := 0) hnone hlen (Nat.zero_le _) (by omega)
    · simp only [hlen,if_false]
      exact altLoop_endless hnone (by omega) fuel 0

end Settings

def Blank (altsetting : List InterfaceDescriptor) : Prop :=
  altsetting.length < 256 ∧ ∀ inter ∈ altsetting, ¬inter.isKeyboard = true

def Endless (altsetting : List InterfaceDescriptor) : Prop :=
  256 ≤ altsetting.length ∧ ∀ inter ∈ looked altsetting, ¬inter.isKeyboard = true

/-- Interface `i` is the first one of the configuration that is not passed over. -/
def Reaches (config : Config) (i : ℕ) (altsetting : List InterfaceDescriptor) : Prop :=
  ∃ before after, config.interface = before ++ altsetting::after ∧ before.length = i ∧
    ∀ x ∈ before, Blank x

/-- The loops pass over the device. -/
def Passed (dev : Device) : Prop :=
  0 ≤ dev.getDeviceDescriptor ∧ (dev.bDeviceClass = classPerInterface →
    ∃ config, dev.getConfigDescriptor = some config ∧ ∀ x ∈ config.interface, Blank x)

def Comes (dev : Device) (i : ℕ) (p : List InterfaceDescriptor → Prop) : Prop :=
  0 ≤ dev.getDeviceDescriptor ∧ dev.bDeviceClass = classPerInterface ∧
    ∃ config altsetting, dev.getConfigDescriptor = some config ∧
      Reaches config i altsetting ∧ p altsetting

def HasKeyboard (dev : Device) (i : ℕ) (inter : InterfaceDescriptor) : Prop :=
  Comes dev i fun altsetting =>
    (looked altsetting).find? InterfaceDescriptor.isKeyboard = some inter

section Bodies

variable {fuel : ℕ} (hfuel : 257 ≤ fuel)

include hfuel

theorem interfaceBody_pass_iff (i : ℕ) (altsetting : List InterfaceDescriptor) :
    interfaceBody fuel i altsetting = some none ↔ Blank altsetting := by
  rw [interfaceBody,altLoop_eq hfuel]
  cases hfind : (looked altsetting).find? InterfaceDescriptor.isKeyboard with
  | some inter =>
    refine iff_of_false (by simp) ?_
    rintro ⟨-,hblank⟩
    have hmem := List.mem_of_mem_take (List.mem_of_find?_eq_some hfind)
    exact hblank inter hmem (List.find?_some hfind)
  | none =>
    have hnone := List.find?_eq_none.mp hfind
    by_cases hlen : altsetting.length < 256
    · rw [looked,List.take_of_length_le (by omega)] at hnone
      simp only [hlen,if_true]
      exact iff_of_true rfl ⟨hlen,hnone⟩
    · simp only [hlen,if_false]
      exact iff_of_false (by simp) fun h => hlen h.1

theorem interfaceBody_found_iff {i j : ℕ} {altsetting : List InterfaceDescriptor}
    {inter : InterfaceDescriptor} : interfaceBody fuel i altsetting = some (some (j,inter)) ↔
      j = i ∧ (looked altsetting).find? InterfaceDescriptor.isKeyboard = some inter := by
  rw [interfaceBody,altLoop_eq hfuel]
  cases hfind : (looked altsetting).find? InterfaceDescriptor.isKeyboard with
  | some inter' => simp [eq_comm]
  | none => by_cases hlen : altsetting.length < 256 <;> simp [hlen]

theorem interfaceBody_none_iff (i : ℕ) (altsetting : List InterfaceDescriptor) :
    interfaceBody fuel i altsetting = none ↔ Endless altsetting := by
  rw [interfaceBody,altLoop_eq hfuel]
  cases hfind : (looked altsetting).find? InterfaceDescriptor.isKeyboard with
  | some inter =>
    refine iff_of_false (by simp) ?_
    rintro ⟨-,hblank⟩
    exact hblank inter (List.mem_of_find?_eq_some hfind) (List.find?_some hfind)
  | none =>
    have hnone := List.find?_eq_none.mp hfind
    by_cases hlen : altsetting.length < 256
    · simp only [hlen,if_true]
      exact iff_of_false (by simp) fun h => absurd h.1 (by omega)
    · simp only [hlen,if_false]
      exact iff_of_true rfl ⟨by omega,hnone⟩

theorem interfaces_passes (xs : List (List InterfaceDescriptor)) (i : ℕ) :
    Passes (interfaceBody fuel) xs i ↔ ∀ x ∈ xs, Blank x :=
  passes_iff_forall (interfaceBody_pass_iff hfuel)

theorem scan_found_iff (config : Config) (i : ℕ) (inter : InterfaceDescriptor) :
    scan (interfaceBody fuel) config.interface 0 = some (some (i,inter)) ↔
      ∃ altsetting, Reaches config i altsetting ∧
        (looked altsetting).find? InterfaceDescriptor.isKeyboard = some inter := by
  rw [scan_eq_of_stop (by simp)]
  constructor
  · rintro ⟨before,after,x,he,hpass,hx⟩
    rw [interfaceBody_found_iff hfuel,Nat.zero_add] at hx
    rw [interfaces_passes hfuel] at hpass
    exact ⟨x,⟨before,after,he,hx.1.symm,hpass⟩,hx.2⟩
  · rintro ⟨x,⟨before,after,he,hi,hblank⟩,hx⟩
    refine ⟨before,after,x,he,(interfaces_passes hfuel _ _).mpr hblank,?_⟩
    rw [interfaceBody_found_iff hfuel,Nat.zero_add]
    exact ⟨hi.symm,hx⟩

theorem scan_none_iff (config : Config) :
    scan (interfaceBody fuel) config.interface 0 = none ↔
      ∃ i altsetting, Reaches config i altsetting ∧ Endless altsetting := by
  rw [scan_eq_of_stop (by simp)]
  constructor
  · rintro ⟨before,after,x,he,hpass,hx⟩
    rw [interfaces_passes hfuel] at hpass
    exact ⟨_,x,⟨before,after,he,rfl,hpass⟩,(interfaceBody_none_iff hfuel _ _).mp hx⟩
  · rintro ⟨i,x,⟨before,after,he,-,hblank⟩,hx⟩
    exact ⟨before,after,x,he,(interfaces_passes hfuel _ _).mpr hblank,
      (interfaceBody_none_iff hfuel _ _).mpr hx⟩

theorem deviceBody_pass_iff (d : ℕ) (dev : Device) :
    deviceBody fuel d dev = some none ↔ Passed dev := by
  unfold deviceBody Passed
  by_cases hdesc : dev.getDeviceDescriptor < 0
  · rw [if_pos hdesc]
    exact iff_of_false (by simp) fun h => absurd h.1 (not_le.mpr hdesc)
  · rw [if_neg hdesc]
    by_cases hclass : dev.bDeviceClass = classPerInterface
    · rw [if_pos hclass]
      cases hconfig : dev.getConfigDescriptor with
      | none =>
        refine iff_of_false (by simp) ?_
        rintro ⟨-,h⟩
        obtain ⟨config,h,-⟩ := h hclass
        exact absurd h (by simp)
      | some config =>
        have hend : scan (interfaceBody fuel) config.interface 0 = some none ↔
            ∀ x ∈ config.interface, Blank x :=
          scan_eq_end_iff.trans (interfaces_passes hfuel _ _)
        simp [hend,hclass,not_lt.mp hdesc]
    · rw [if_neg hclass]
      exact iff_of_true rfl ⟨not_lt.mp hdesc,fun h => absurd h hclass⟩

theorem deviceBody_none_iff (d : ℕ) (dev : Device) :
    deviceBody fuel d dev = none ↔ ∃ i, Comes dev i Endless := by
  unfold deviceBody Comes
  by_cases hdesc : dev.getDeviceDescriptor < 0
  · rw [if_pos hdesc]
    refine iff_of_false (by simp) ?_
    rintro ⟨i,h,-⟩
    exact absurd h (not_le.mpr hdesc)
  · rw [if_neg hdesc]
    by_cases hclass : dev.bDeviceClass = classPerInterface
    · rw [if_pos hclass]
      cases hconfig : dev.getConfigDescriptor with
      | none => simp
      | some config => simp [scan_none_iff hfuel,hclass,not_lt.mp hdesc]
    · rw [if_neg hclass]
      simp [hclass]

theorem deviceBody_stop_iff {d : ℕ} {dev : Device} {run : Run} :
    deviceBody fuel d dev = some (some run) ↔
      (dev.getDeviceDescriptor < 0 ∧ run = ⟨[],.exit .getDeviceDescriptor⟩) ∨
      (0 ≤ dev.getDeviceDescriptor ∧ dev.bDeviceClass = classPerInterface ∧
        dev.getConfigDescriptor = none ∧ run = ⟨[],.undefined⟩) ∨
      ∃ i inter, HasKeyboard dev i inter ∧ run = claim dev d i inter := by
  unfold deviceBody HasKeyboard Comes
  by_cases hdesc : dev.getDeviceDescriptor < 0
  · rw [if_pos hdesc]
    simp [hdesc,not_le.mpr hdesc,eq_comm]
  · rw [if_neg hdesc]
    by_cases hclass : dev.bDeviceClass = classPerInterface
    · rw [if_pos hclass]
      cases hconfig : dev.getConfigDescriptor with
      | none => simp [hdesc,not_lt.mp hdesc,hclass,eq_comm]
      | some config =>
        simp only [hdesc,not_lt.mp hdesc,hclass,false_and,false_or,true_and,
          Option.map_eq_some_iff,Option.some.injEq,reduceCtorEq,and_false]
        constructor
        · rintro ⟨o,ho,⟨i,inter⟩,rfl,rfl⟩
          obtain ⟨altsetting,hreach,hfind⟩ := (scan_found_iff hfuel config i inter).mp ho
          exact ⟨i,inter,⟨config,altsetting,rfl,hreach,hfind⟩,rfl⟩
        · rintro ⟨i,inter,⟨config',altsetting,rfl,hreach,hfind⟩,rfl⟩
          exact ⟨_,(scan_found_iff hfuel _ i inter).mpr ⟨altsetting,hreach,hfind⟩,_,rfl,rfl⟩
    · rw [if_neg hclass]
      simp [hdesc,hclass]

end Bodies

/-- The calls of a successful search. Automatic detaching is switched on for every interface but
the first. -/
def taken (dev : Device) (d i : ℕ) : List Call :=
  [.libusbOpen d] ++ (if dev.kernelDriverActive i ≠ 0 then [.detachKernelDriver d i] else []) ++
    [.setAutoDetachKernelDriver d (i ≠ 0),.claimInterface d i,.freeDeviceList]

section Claim

variable {dev : Device} {d i : ℕ} {inter : InterfaceDescriptor}

theorem claim_keyboard_iff {calls : List Call} {d' i' : ℕ} {endpointAddress : UInt8} :
    claim dev d i inter = ⟨calls,.keyboard d' i' endpointAddress⟩ ↔
      d' = d ∧ i' = i ∧ dev.libusbOpen = 0 ∧ dev.claimInterface i = 0 ∧
        inter.endpoint.head? = some endpointAddress ∧ calls = taken dev d i := by
  unfold claim taken
  by_cases hopen : dev.libusbOpen = 0
  · by_cases hclaim : dev.claimInterface i = 0
    · cases hend : inter.endpoint with
      | nil => simp [hopen,hclaim]
      | cons ep eps =>
        simp only [hopen,hclaim,ne_eq,not_true_eq_false,if_false,Run.mk.injEq,
          Outcome.keyboard.injEq,List.head?_cons,Option.some.injEq,true_and]
        constructor
        · rintro ⟨rfl,rfl,rfl,rfl⟩
          exact ⟨rfl,rfl,rfl,by simp⟩
        · rintro ⟨rfl,rfl,rfl,rfl⟩
          exact ⟨by simp,rfl,rfl,rfl⟩
    · simp [hopen,hclaim]
  · simp [hopen]

theorem claim_ne_null (calls : List Call) : claim dev d i inter ≠ ⟨calls,.null⟩ := by
  unfold claim
  by_cases hopen : dev.libusbOpen = 0
  · by_cases hclaim : dev.claimInterface i = 0
    · cases hend : inter.endpoint <;> simp [hopen,hclaim]
    · simp [hopen,hclaim]
  · simp [hopen]

/-- A search that breaks off has made the first calls of a successful one. -/
theorem claim_calls_prefix : (claim dev d i inter).calls <+: taken dev d i := by
  unfold claim taken
  by_cases hopen : dev.libusbOpen = 0
  · by_cases hclaim : dev.claimInterface i = 0
    · cases hend : inter.endpoint <;> simp [hopen,hclaim]
    · simp [hopen,hclaim]
  · simp [hopen]

theorem taken_dropLast : (taken dev d i).dropLast =
    [.libusbOpen d] ++ (if dev.kernelDriverActive i ≠ 0 then [.detachKernelDriver d i] else []) ++
      [.setAutoDetachKernelDriver d (i ≠ 0),.claimInterface d i] := by
  have h : taken dev d i = ([.libusbOpen d] ++
      (if dev.kernelDriverActive i ≠ 0 then [.detachKernelDriver d i] else []) ++
        [.setAutoDetachKernelDriver d (i ≠ 0),.claimInterface d i]) ++ [.freeDeviceList] := by
    simp [taken]
  rw [h,List.dropLast_concat]

theorem claim_undefined_iff {calls : List Call} : claim dev d i inter = ⟨calls,.undefined⟩ ↔
    dev.libusbOpen = 0 ∧ dev.claimInterface i = 0 ∧ inter.endpoint = [] ∧
      calls = (taken dev d i).dropLast := by
  rw [taken_dropLast]
  unfold claim
  by_cases hopen : dev.libusbOpen = 0
  · by_cases hclaim : dev.claimInterface i = 0
    · cases hend : inter.endpoint with
      | nil => simp [hopen,hclaim,eq_comm]
      | cons ep eps => simp [hopen,hclaim]
    · simp [hopen,hclaim]
  · simp [hopen]

end Claim

section Search

variable {fuel : ℕ} {bus : Bus} {devs : List Device}

def LeftAt (fuel : ℕ) (devs : List Device) (d : ℕ) (dev : Device) (o : Option (Option Run)) :
    Prop :=
  ∃ before after, devs = before ++ dev::after ∧ before.length = d ∧ (∀ x ∈ before, Passed x) ∧
    deviceBody fuel d dev = o

theorem devices_pass_iff (hfuel : 257 ≤ fuel) :
    scan (deviceBody fuel) devs 0 = some none ↔ ∀ dev ∈ devs, Passed dev :=
  scan_eq_end_iff.trans (passes_iff_forall (deviceBody_pass_iff hfuel))

theorem devices_stop_iff (hfuel : 257 ≤ fuel) {o : Option (Option Run)} (ho : o ≠ some none) :
    scan (deviceBody fuel) devs 0 = o ↔ ∃ d dev, LeftAt fuel devs d dev o := by
  rw [scan_eq_of_stop ho]
  simp only [passes_iff_forall (deviceBody_pass_iff hfuel),Nat.zero_add]
  constructor
  · rintro ⟨before,after,dev,he,hpass,hdev⟩
    exact ⟨_,dev,before,after,he,rfl,hpass,hdev⟩
  · rintro ⟨_,dev,before,after,he,rfl,hpass,hdev⟩
    exact ⟨before,after,dev,he,hpass,hdev⟩

theorem devices_stop_ne_null (hfuel : 257 ≤ fuel) {run : Run}
    (h : scan (deviceBody fuel) devs 0 = some (some run)) (calls : List Call) :
    run ≠ ⟨calls,.null⟩ := by
  obtain ⟨d,dev,before,after,-,-,-,hbody⟩ := (devices_stop_iff hfuel (by simp)).mp h
  rcases (deviceBody_stop_iff hfuel).mp hbody with ⟨-,rfl⟩ | ⟨-,-,-,rfl⟩ | ⟨i,inter,-,rfl⟩
  · simp
  · simp
  · exact claim_ne_null calls

theorem openkeyboard_eq (hinit : 0 ≤ bus.libusbInit) (hlist : bus.getDeviceList = some devs) :
    openkeyboard fuel bus =
      (scan (deviceBody fuel) devs 0).map fun o => o.getD ⟨[.freeDeviceList],.null⟩ := by
  rw [openkeyboard,if_neg (not_lt.mpr hinit),hlist]

theorem openkeyboard_stop_iff (hfuel : 257 ≤ fuel) (hinit : 0 ≤ bus.libusbInit)
    (hlist : bus.getDeviceList = some devs) {run : Run} (hrun : run ≠ ⟨[.freeDeviceList],.null⟩) :
    openkeyboard fuel bus = some run ↔ ∃ d dev, LeftAt fuel devs d dev (some (some run)) := by
  rw [openkeyboard_eq hinit hlist,← devices_stop_iff hfuel (by simp)]
  cases scan (deviceBody fuel) devs 0 with
  | none => simp
  | some o =>
    cases o with
    | none => simp [Ne.symm hrun]
    | some r => simp

def FirstKeyboard (devs : List Device) (d : ℕ) (dev : Device) (i : ℕ)
    (inter : InterfaceDescriptor) : Prop :=
  ∃ before after, devs = before ++ dev::after ∧ before.length = d ∧ (∀ x ∈ before, Passed x) ∧
    HasKeyboard dev i inter

/-- The devices before one are passed over, and its configuration cannot be had. -/
def FirstUnconfigured (devs : List Device) : Prop :=
  ∃ before dev after, devs = before ++ dev::after ∧ (∀ x ∈ before, Passed x) ∧
    0 ≤ dev.getDeviceDescriptor ∧ dev.bDeviceClass = classPerInterface ∧
    dev.getConfigDescriptor = none

theorem openkeyboard_null_iff (hfuel : 257 ≤ fuel) (hinit : 0 ≤ bus.libusbInit)
    (hlist : bus.getDeviceList = some devs) {calls : List Call} :
    openkeyboard fuel bus = some ⟨calls,.null⟩ ↔
      (∀ dev ∈ devs, Passed dev) ∧ calls = [.freeDeviceList] := by
  rw [← devices_pass_iff hfuel,openkeyboard_eq hinit hlist]
  cases hscan : scan (deviceBody fuel) devs 0 with
  | none => simp
  | some o =>
    cases o with
    | none => simp [eq_comm]
    | some run =>
      refine iff_of_false ?_ (by simp)
      intro h
      exact devices_stop_ne_null hfuel hscan calls (Option.some.inj h)

theorem openkeyboard_keyboard_iff (hfuel : 257 ≤ fuel) (hinit : 0 ≤ bus.libusbInit)
    (hlist : bus.getDeviceList = some devs) {calls : List Call} {d i : ℕ}
    {endpointAddress : UInt8} :
    openkeyboard fuel bus = some ⟨calls,.keyboard d i endpointAddress⟩ ↔
      ∃ dev inter, FirstKeyboard devs d dev i inter ∧ dev.libusbOpen = 0 ∧
        dev.claimInterface i = 0 ∧ inter.endpoint.head? = some endpointAddress ∧
        calls = taken dev d i := by
  rw [openkeyboard_stop_iff hfuel hinit hlist (by simp)]
  constructor
  · rintro ⟨d',dev,before,after,he,rfl,hpass,hbody⟩
    rcases (deviceBody_stop_iff hfuel).mp hbody with ⟨-,h⟩ | ⟨-,-,-,h⟩ | ⟨i',inter,hkey,h⟩
    · exact absurd h (by simp)
    · exact absurd h (by simp)
    · obtain ⟨rfl,rfl,hopen,hclaim,hend,rfl⟩ := claim_keyboard_iff.mp h.symm
      exact ⟨dev,inter,⟨before,after,he,rfl,hpass,hkey⟩,hopen,hclaim,hend,rfl⟩
  · rintro ⟨dev,inter,⟨before,after,he,hd,hpass,hkey⟩,hopen,hclaim,hend,hcalls⟩
    refine ⟨d,dev,before,after,he,hd,hpass,?_⟩
    rw [deviceBody_stop_iff hfuel]
    refine Or.inr (Or.inr ⟨i,inter,hkey,?_⟩)
    exact (claim_keyboard_iff.mpr ⟨rfl,rfl,hopen,hclaim,hend,hcalls⟩).symm

theorem openkeyboard_undefined_iff (hfuel : 257 ≤ fuel) (hinit : 0 ≤ bus.libusbInit)
    (hlist : bus.getDeviceList = some devs) {calls : List Call} :
    openkeyboard fuel bus = some ⟨calls,.undefined⟩ ↔
      (FirstUnconfigured devs ∧ calls = []) ∨
      ∃ d dev i inter, FirstKeyboard devs d dev i inter ∧ dev.libusbOpen = 0 ∧
        dev.claimInterface i = 0 ∧ inter.endpoint = [] ∧ calls = (taken dev d i).dropLast := by
  rw [openkeyboard_stop_iff hfuel hinit hlist (by simp)]
  constructor
  · rintro ⟨d,dev,before,after,he,hd,hpass,hbody⟩
    rcases (deviceBody_stop_iff hfuel).mp hbody with
      ⟨-,h⟩ | ⟨hdesc,hclass,hconfig,h⟩ | ⟨i,inter,hkey,h⟩
    · exact absurd h (by simp)
    · exact Or.inl ⟨⟨before,dev,after,he,hpass,hdesc,hclass,hconfig⟩,(Run.mk.inj h).1⟩
    · exact Or.inr ⟨d,dev,i,inter,⟨before,after,he,hd,hpass,hkey⟩,claim_undefined_iff.mp h.symm⟩
  · rintro (⟨⟨before,dev,after,he,hpass,hdesc,hclass,hconfig⟩,rfl⟩ |
      ⟨d,dev,i,inter,⟨before,after,he,hd,hpass,hkey⟩,hclaim⟩)
    · exact ⟨_,dev,before,after,he,rfl,hpass,
        (deviceBody_stop_iff hfuel).mpr (Or.inr (Or.inl ⟨hdesc,hclass,hconfig,rfl⟩))⟩
    · exact ⟨d,dev,before,after,he,hd,hpass,(deviceBody_stop_iff hfuel).mpr
        (Or.inr (Or.inr ⟨i,inter,hkey,(claim_undefined_iff.mpr hclaim).symm⟩))⟩

theorem openkeyboard_calls (hfuel : 257 ≤ fuel) (hinit : 0 ≤ bus.libusbInit)
    (hlist : bus.getDeviceList = some devs) {calls : List Call} {outcome : Outcome}
    (h : openkeyboard fuel bus = some ⟨calls,outcome⟩) :
    calls = [] ∨ (outcome = .null ∧ calls = [.freeDeviceList]) ∨
      ∃ d dev i inter, FirstKeyboard devs d dev i inter ∧ calls <+: taken dev d i := by
  by_cases hnull : outcome = .null
  · subst hnull
    exact Or.inr (Or.inl ⟨rfl,((openkeyboard_null_iff hfuel hinit hlist).mp h).2⟩)
  have hne : (⟨calls,outcome⟩ : Run) ≠ ⟨[.freeDeviceList],.null⟩ :=
    fun he => hnull (Run.mk.inj he).2
  obtain ⟨d,dev,before,after,he,hd,hpass,hbody⟩ :=
    (openkeyboard_stop_iff hfuel hinit hlist hne).mp h
  rcases (deviceBody_stop_iff hfuel).mp hbody with ⟨-,h⟩ | ⟨-,-,-,h⟩ | ⟨i,inter,hkey,h⟩
  · exact Or.inl (Run.mk.inj h).1
  · exact Or.inl (Run.mk.inj h).1
  · have hcalls : calls = (claim dev d i inter).calls := congrArg Run.calls h
    refine Or.inr (Or.inr ⟨d,dev,i,inter,⟨before,after,he,hd,hpass,hkey⟩,?_⟩)
    rw [hcalls]
    exact claim_calls_prefix

theorem openkeyboard_endless_iff (hfuel : 257 ≤ fuel) (hinit : 0 ≤ bus.libusbInit)
    (hlist : bus.getDeviceList = some devs) :
    openkeyboard fuel bus = none ↔ ∃ before dev after i, devs = before ++ dev::after ∧
      (∀ x ∈ before, Passed x) ∧ Comes dev i Endless := by
  rw [openkeyboard_eq hinit hlist,Option.map_eq_none_iff,devices_stop_iff hfuel (by simp)]
  constructor
  · rintro ⟨d,dev,before,after,he,-,hpass,hbody⟩
    obtain ⟨i,hcomes⟩ := (deviceBody_none_iff hfuel _ _).mp hbody
    exact ⟨before,dev,after,i,he,hpass,hcomes⟩
  · rintro ⟨before,dev,after,i,he,hpass,hcomes⟩
    exact ⟨_,dev,before,after,he,rfl,hpass,(deviceBody_none_iff hfuel _ _).mpr ⟨i,hcomes⟩⟩

/-- The search on a bus whose devices are listed. It ends with `NULL` exactly if every device is
readable and passed over, with a handle exactly if the first interface with a keyboard setting can
be opened and claimed and has an endpoint, in a read through a pointer that was never set exactly
if the configuration of a device it comes to is missing or the claimed interface has no endpoint,
and it does not end exactly if it first comes to an interface of 256 or more settings without a
keyboard among the first 256. However it ends, it has made only the first calls of those that open
the device of the first keyboard and claim its interface. -/
theorem openkeyboard_first (hfuel : 257 ≤ fuel) (hinit : 0 ≤ bus.libusbInit)
    (hlist : bus.getDeviceList = some devs) :
    (∀ calls, openkeyboard fuel bus = some ⟨calls,.null⟩ ↔
        (∀ dev ∈ devs, Passed dev) ∧ calls = [.freeDeviceList]) ∧
      (∀ calls d i endpointAddress,
        openkeyboard fuel bus = some ⟨calls,.keyboard d i endpointAddress⟩ ↔
          ∃ dev inter, FirstKeyboard devs d dev i inter ∧ dev.libusbOpen = 0 ∧
            dev.claimInterface i = 0 ∧ inter.endpoint.head? = some endpointAddress ∧
            calls = taken dev d i) ∧
      (∀ calls, openkeyboard fuel bus = some ⟨calls,.undefined⟩ ↔
        (FirstUnconfigured devs ∧ calls = []) ∨
        ∃ d dev i inter, FirstKeyboard devs d dev i inter ∧ dev.libusbOpen = 0 ∧
          dev.claimInterface i = 0 ∧ inter.endpoint = [] ∧ calls = (taken dev d i).dropLast) ∧
      (∀ calls outcome, openkeyboard fuel bus = some ⟨calls,outcome⟩ →
        calls = [] ∨ (outcome = .null ∧ calls = [.freeDeviceList]) ∨
          ∃ d dev i inter, FirstKeyboard devs d dev i inter ∧ calls <+: taken dev d i) ∧
      (openkeyboard fuel bus = none ↔ ∃ before dev after i, devs = before ++ dev::after ∧
        (∀ x ∈ before, Passed x) ∧ Comes dev i Endless) :=
  ⟨fun _ => openkeyboard_null_iff hfuel hinit hlist,
    fun _ _ _ _ => openkeyboard_keyboard_iff hfuel hinit hlist,
    fun _ => openkeyboard_undefined_iff hfuel hinit hlist,
    fun _ _ h => openkeyboard_calls hfuel hinit hlist h,
    openkeyboard_endless_iff hfuel hinit hlist⟩

theorem openkeyboard_first_second_interface :
    let hub : Device := ⟨0,9,none,0,fun _ => 0,fun _ => 0⟩
    let keys : Device := ⟨0,0,some ⟨[[⟨3,2,[0x81]⟩],[⟨3,0,[0x82]⟩,⟨3,1,[0x83]⟩]],by decide⟩,0,
      fun _ => 1,fun _ => 0⟩
    openkeyboard 300 ⟨0,some [hub,keys]⟩ = some ⟨[.libusbOpen 1,.detachKernelDriver 1 1,
      .setAutoDetachKernelDriver 1 true,.claimInterface 1 1,.freeDeviceList],
      .keyboard 1 1 0x83⟩ := by
  intro hub keys
  have hhub : Passed hub := ⟨le_rfl,fun h => absurd h (by decide)⟩
  have hblank : Blank [⟨3,2,[0x81]⟩] := ⟨by decide,by decide⟩
  have hfirst : FirstKeyboard [hub,keys] 1 keys 1 ⟨3,1,[0x83]⟩ := by
    refine ⟨[hub],[],rfl,rfl,by simpa using hhub,le_rfl,rfl,_,[⟨3,0,[0x82]⟩,⟨3,1,[0x83]⟩],rfl,?_,
      by decide⟩
    exact ⟨[[⟨3,2,[0x81]⟩]],[],rfl,rfl,by simpa using hblank⟩
  have hspec := @openkeyboard_first 300 ⟨0,some [hub,keys]⟩ [hub,keys] (by decide) le_rfl rfl
  exact (hspec.2.1 _ _ _ _).mpr ⟨keys,_,hfirst,rfl,rfl,rfl,rfl⟩

end Search

end UsbKeyboard
end EmbeddedSystems
