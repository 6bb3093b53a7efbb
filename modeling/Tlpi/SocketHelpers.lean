/-
`sockets/inet_sockets.c` and `sockets/unix_sockets.c`: the functions that make a socket and connect
or bind it, and what becomes of the descriptors on the way.

What each call comes to is given with the address that it is made for: a list of addresses is the
list that `getaddrinfo()` returns, with what `socket()`, `setsockopt()`, `connect()`, `bind()` and
`listen()` will do for each of them. Descriptors are numbered as the kernel likes, as long as it does
not use a number twice. `close()` succeeds. What is left out: the arguments that only say what kind
of socket is meant, and `errno`.
-/
import Mathlib.Data.List.Basic
import Mathlib.Algebra.Order.BigOperators.Group.List
import Tlpi.UnixAddress

set_option autoImplicit false

namespace Tlpi.SocketHelpers

open Tlpi.CString Tlpi.Descriptor Tlpi.UnixAddress

/-! ## 1. Sockets -/

/-- A socket address and its length. -/
abbrev Address := List UInt8 × ℕ

/-- What has been done with a socket. -/
inductive Sock where
  | made
  | connected (addr : Address)
  | bound (addr : Address)
  | listening (addr : Address)
deriving Repr, DecidableEq

/-- The open descriptors of the process, and the number of calls of `freeaddrinfo()`. -/
structure World where
  socks : List (ℕ × Sock)
  freed : ℕ
deriving Repr, DecidableEq

/-- The number that a new descriptor gets. -/
structure Numbering where
  next : List (ℕ × Sock) → ℕ
  fresh : ∀ socks, ∀ sock ∈ socks, sock.1 ≠ next socks

namespace World

def addSocket (num : Numbering) (w : World) : ℕ × World :=
  (num.next w.socks, { w with socks := (num.next w.socks, .made) :: w.socks })

/-- Something is done with a socket. -/
def set (w : World) (fd : ℕ) (sock : Sock) : World :=
  { w with socks := w.socks.map fun s => if s.1 = fd then (fd, sock) else s }

def close (w : World) (fd : ℕ) : World :=
  { w with socks := w.socks.filter fun s => s.1 ≠ fd }

def freeaddrinfo (w : World) : World := { w with freed := w.freed + 1 }

end World

/-! ## 2. The functions -/

/-- An entry of the list that `getaddrinfo()` returns, and what the calls for it will do. -/
structure AddrInfo where
  addr : Address
  socket : Bool
  setsockopt : Bool
  connect : Bool
  bind : Bool
  listen : Bool
deriving Repr, DecidableEq

/-- What a function returns, `none` for -1, and stores in `*addrlen`. -/
structure Ret where
  ret : Option ℕ
  addrlen : Option ℕ
  world : World
deriving Repr, DecidableEq

/-- The loop of `inetConnect()`: the descriptor with which it is left, `none` if `rp` is `NULL`. -/
def connectLoop (num : Numbering) : List AddrInfo → World → Option ℕ × World
  | [], w => (none, w)
  | rp :: next, w =>
    if !rp.socket then connectLoop num next w
    else
      let (sfd, w) := w.addSocket num
      if rp.connect then (some sfd, w.set sfd (.connected rp.addr))
      else connectLoop num next (w.close sfd)

def inetConnect (num : Numbering) (result : Option (List AddrInfo)) (w : World) : Ret :=
  match result with
  | none => ⟨none, none, w⟩
  | some result =>
    let (sfd, w) := connectLoop num result w
    ⟨sfd, none, w.freeaddrinfo⟩

/-- How the loop of `inetPassiveSocket()` is left. -/
inductive Left where
  /-- The function has returned -1. -/
  | returned
  | exhausted
  | bound (sfd : ℕ) (rp : AddrInfo)
deriving Repr, DecidableEq

def passiveLoop (num : Numbering) (doListen : Bool) : List AddrInfo → World → Left × World
  | [], w => (.exhausted, w)
  | rp :: next, w =>
    if !rp.socket then passiveLoop num doListen next w
    else
      let (sfd, w) := w.addSocket num
      if doListen && !rp.setsockopt then (.returned, (w.close sfd).freeaddrinfo)
      else if rp.bind then (.bound sfd rp, w.set sfd (.bound rp.addr))
      else passiveLoop num doListen next (w.close sfd)

def inetPassiveSocket (num : Numbering) (doListen : Bool) (result : Option (List AddrInfo))
    (w : World) : Ret :=
  match result with
  | none => ⟨none, none, w⟩
  | some result =>
    match passiveLoop num doListen result w with
    | (.returned, w) => ⟨none, none, w⟩
    | (.exhausted, w) => ⟨none, none, w.freeaddrinfo⟩
    | (.bound sfd rp, w) =>
      if doListen then
        -- the socket is not closed here
        if !rp.listen then ⟨none, none, w.freeaddrinfo⟩
        else ⟨some sfd, some rp.addr.2, (w.set sfd (.listening rp.addr)).freeaddrinfo⟩
      else ⟨some sfd, some rp.addr.2, w.freeaddrinfo⟩

def inetListen (num : Numbering) : Option (List AddrInfo) → World → Ret := inetPassiveSocket num true

def inetBind (num : Numbering) : Option (List AddrInfo) → World → Ret := inetPassiveSocket num false

/-- What the calls of `unixConnect()` and `unixBind()` will do, and what is in the memory of their
`struct sockaddr_un` before. -/
structure UnixCalls where
  addr : Mem
  socket : Bool
  ok : Bool

/-- The address that is built for a pathname. -/
def unixAddress (path : Option CStr) (addr : Mem) : Option Address :=
  let built := unixBuildAddress path (some addr)
  match built.ret, built.addr with
  | .ok (), some mem => some (slice mem 0 (SUN_LEN mem), SUN_LEN mem)
  | _, _ => none

/-- `use` is what `connect()` or `bind()` makes of the socket. -/
def unixSocket (num : Numbering) (use : Address → Sock) (path : Option CStr) (c : UnixCalls)
    (w : World) : Ret :=
  match unixAddress path c.addr with
  | none => ⟨none, none, w⟩
  | some addr =>
    if !c.socket then ⟨none, none, w⟩
    else
      let (sd, w) := w.addSocket num
      if !c.ok then ⟨none, none, w.close sd⟩
      else ⟨some sd, none, w.set sd (use addr)⟩

def unixConnect (num : Numbering) : Option CStr → UnixCalls → World → Ret := unixSocket num .connected

def unixBind (num : Numbering) : Option CStr → UnixCalls → World → Ret := unixSocket num .bound

/-- A call of one of the functions. -/
inductive Call where
  | inetConnect (result : Option (List AddrInfo))
  | inetListen (result : Option (List AddrInfo))
  | inetBind (result : Option (List AddrInfo))
  | unixConnect (path : Option CStr) (c : UnixCalls)
  | unixBind (path : Option CStr) (c : UnixCalls)

def Call.run (num : Numbering) (w : World) : Call → Ret
  | .inetConnect result => SocketHelpers.inetConnect num result w
  | .inetListen result => SocketHelpers.inetListen num result w
  | .inetBind result => SocketHelpers.inetBind num result w
  | .unixConnect path c => SocketHelpers.unixConnect num path c w
  | .unixBind path c => SocketHelpers.unixBind num path c w

/-! ## 3. The account -/

/-- What the socket that is returned should be, for its address. -/
def Call.wanted : Call → Address → Sock
  | .inetConnect _ | .unixConnect _ _ => .connected
  | .inetListen _ => .listening
  | .inetBind _ | .unixBind _ _ => .bound

/-- The addresses in their order, and whether all that is to be done works for them. -/
def Call.addresses : Call → List (Address × Bool)
  | .inetConnect result => (result.getD []).map fun rp => (rp.addr, rp.socket && rp.connect)
  | .inetListen result => (result.getD []).map fun rp =>
    (rp.addr, rp.socket && rp.setsockopt && rp.bind && rp.listen)
  | .inetBind result => (result.getD []).map fun rp => (rp.addr, rp.socket && rp.bind)
  | .unixConnect path c | .unixBind path c =>
    (unixAddress path c.addr).toList.map fun addr => (addr, c.socket && c.ok)

/-- The number of address lists that there are to be freed. -/
def Call.lists : Call → ℕ
  | .inetConnect result | .inetListen result | .inetBind result => if result.isSome then 1 else 0
  | .unixConnect _ _ | .unixBind _ _ => 0

/-- Nothing is left open but the socket that is returned, which is one for the first address that
works; and the address list is freed once. -/
structure Accounted (w : World) (call : Call) (r : Ret) : Prop where
  failed : r.ret = none → r.world.socks = w.socks
  returned : ∀ fd, r.ret = some fd → (∀ sock ∈ w.socks, sock.1 ≠ fd) ∧
    ∃ addr, call.addresses.find? (·.2) = some (addr, true) ∧
      r.world.socks = (fd, call.wanted addr) :: w.socks
  freed : r.world.freed = w.freed + call.lists

/-- `listen()` fails, for the address that `bind()` works for first. -/
def ListenFails (result : List AddrInfo) : Prop :=
  ∃ before rp after, result = before ++ rp :: after ∧
    (∀ rp' ∈ before, rp'.socket → rp'.setsockopt ∧ !rp'.bind) ∧
    rp.socket ∧ rp.setsockopt ∧ rp.bind ∧ !rp.listen

/-! ## 4. One address -/

/-- What is done with the descriptor of a new socket is done with no other. -/
theorem set_new (num : Numbering) (w : World) (old new : Sock) :
    World.set ⟨(num.next w.socks, old) :: w.socks, w.freed⟩ (num.next w.socks) new =
      ⟨(num.next w.socks, new) :: w.socks, w.freed⟩ := by
  have hsame : w.socks.map (fun s => if s.1 = num.next w.socks then (num.next w.socks, new) else s)
      = w.socks := by
    conv_rhs => rw [← List.map_id w.socks]
    apply List.map_congr_left
    intro s hs
    exact if_neg (num.fresh _ s hs)
  unfold World.set
  rw [List.map_cons, if_pos rfl, hsame]

/-- A new socket that is closed leaves nothing behind. -/
theorem close_addSocket (num : Numbering) (w : World) :
    (w.addSocket num).2.close (num.next w.socks) = w := by
  have hkept : w.socks.filter (fun s => s.1 ≠ num.next w.socks) = w.socks := by
    apply List.filter_eq_self.mpr
    intro s hs
    exact decide_eq_true (num.fresh _ s hs)
  unfold World.close World.addSocket
  rw [List.filter_cons_of_neg (by simp), hkept]

/-- The loop of `inetConnect()` is left at an address. -/
def connects (rp : AddrInfo) : Bool := rp.socket && rp.connect

/-- The loop of `inetPassiveSocket()` is left at an address: `setsockopt()` fails, or `bind()`
works. -/
def stops (doListen : Bool) (rp : AddrInfo) : Bool :=
  rp.socket && ((doListen && !rp.setsockopt) || rp.bind)

theorem connectLoop_next (num : Numbering) {rp : AddrInfo} (h : connects rp = false)
    (next : List AddrInfo) (w : World) :
    connectLoop num (rp :: next) w = connectLoop num next w := by
  rw [connectLoop]
  cases hsocket : rp.socket with
  | false => rfl
  | true =>
    have hconnect : rp.connect = false := by
      rw [connects, hsocket, Bool.true_and] at h
      exact h
    simp only [hconnect, Bool.not_true, Bool.false_eq_true, if_false]
    -- the world is the one before the socket was made
    exact congrArg (connectLoop num next) (close_addSocket num w)

theorem connectLoop_works (num : Numbering) {rp : AddrInfo} (h : connects rp = true)
    (next : List AddrInfo) (w : World) :
    connectLoop num (rp :: next) w = (some (num.next w.socks),
      ⟨(num.next w.socks, .connected rp.addr) :: w.socks, w.freed⟩) := by
  obtain ⟨hsocket, hconnect⟩ := Bool.and_eq_true_iff.mp h
  rw [connectLoop]
  simp only [hsocket, hconnect, Bool.not_true, Bool.false_eq_true, if_false, if_true]
  rw [← set_new num w .made]
  rfl

theorem passiveLoop_next (num : Numbering) {doListen : Bool} {rp : AddrInfo}
    (h : stops doListen rp = false) (next : List AddrInfo) (w : World) :
    passiveLoop num doListen (rp :: next) w = passiveLoop num doListen next w := by
  rw [passiveLoop]
  cases hsocket : rp.socket with
  | false => rfl
  | true =>
    rw [stops, hsocket, Bool.true_and] at h
    obtain ⟨hset, hbind⟩ := Bool.or_eq_false_iff.mp h
    simp only [hset, hbind, Bool.not_true, Bool.false_eq_true, if_false]
    exact congrArg (passiveLoop num doListen next) (close_addSocket num w)

theorem passiveLoop_stops (num : Numbering) {doListen : Bool} {rp : AddrInfo}
    (h : stops doListen rp = true) (next : List AddrInfo) (w : World) :
    passiveLoop num doListen (rp :: next) w =
      if doListen && !rp.setsockopt then (.returned, w.freeaddrinfo)
      else (.bound (num.next w.socks) rp,
        ⟨(num.next w.socks, .bound rp.addr) :: w.socks, w.freed⟩) := by
  obtain ⟨hsocket, hor⟩ := Bool.and_eq_true_iff.mp h
  rw [passiveLoop]
  simp only [hsocket, Bool.not_true, Bool.false_eq_true, if_false]
  cases hset : doListen && !rp.setsockopt with
  | true => exact congrArg (fun w => (Left.returned, World.freeaddrinfo w)) (close_addSocket num w)
  | false =>
    rw [hset, Bool.false_or] at hor
    simp only [hor, Bool.false_eq_true, if_false, if_true]
    rw [← set_new num w .made]
    rfl

/-! ## 5. The list -/

/-- The loop of `inetConnect()` is left with a socket for the first address that can be connected
to. -/
theorem connectLoop_eq (num : Numbering) (result : List AddrInfo) (w : World) :
    connectLoop num result w = match result.find? connects with
      | none => (none, w)
      | some rp => (some (num.next w.socks),
        ⟨(num.next w.socks, .connected rp.addr) :: w.socks, w.freed⟩) := by
  induction result with
  | nil => rfl
  | cons rp next ih =>
    cases h : connects rp with
    | true => rw [connectLoop_works num h, List.find?_cons_of_pos h]
    | false => rw [connectLoop_next num h, List.find?_cons_of_neg (by simp [h]), ih]

/-- The loop of `inetPassiveSocket()` is left at the first address that stops it. -/
theorem passiveLoop_eq (num : Numbering) (doListen : Bool) (result : List AddrInfo) (w : World) :
    passiveLoop num doListen result w = match result.find? (stops doListen) with
      | none => (.exhausted, w)
      | some rp =>
        if doListen && !rp.setsockopt then (.returned, w.freeaddrinfo)
        else (.bound (num.next w.socks) rp,
          ⟨(num.next w.socks, .bound rp.addr) :: w.socks, w.freed⟩) := by
  induction result with
  | nil => rfl
  | cons rp next ih =>
    cases h : stops doListen rp with
    | true => rw [passiveLoop_stops num h, List.find?_cons_of_pos h]
    | false => rw [passiveLoop_next num h, List.find?_cons_of_neg (by simp [h]), ih]

/-- The first element that is found is the first of fewer, if it is one of them. -/
theorem find?_of_imp {α : Type} {p q : α → Bool} (himp : ∀ x, q x = true → p x = true)
    {l : List α} {a : α} (h : l.find? p = some a) (hq : q a = true) : l.find? q = some a := by
  rw [List.find?_eq_some_iff_append] at h ⊢
  obtain ⟨-, before, after, hl, hbefore⟩ := h
  refine ⟨hq, before, after, hl, fun b hb => ?_⟩
  have hnot := hbefore b hb
  rw [Bool.not_eq_true'] at hnot ⊢
  by_contra hqb
  rw [himp b (Bool.not_eq_false _ ▸ hqb)] at hnot
  exact Bool.noConfusion hnot

/-- The first address for which all works is the one that the loop was left at. -/
theorem find?_addresses {ok p : AddrInfo → Bool} (himp : ∀ rp, ok rp = true → p rp = true)
    {result : List AddrInfo} {rp : AddrInfo} (h : result.find? p = some rp) (hok : ok rp = true) :
    (result.map fun rp => (rp.addr, ok rp)).find? (·.2) = some (rp.addr, true) := by
  rw [List.find?_map]
  have hfound : result.find? ((·.2) ∘ fun rp => (rp.addr, ok rp)) = some rp :=
    find?_of_imp himp h hok
  rw [hfound, Option.map_some, hok]

theorem listenFails_iff (result : List AddrInfo) : ListenFails result ↔
    ∃ rp, result.find? (stops true) = some rp ∧ rp.setsockopt = true ∧ rp.listen = false := by
  constructor
  · rintro ⟨before, rp, after, hresult, hbefore, hsocket, hset, hbind, hlisten⟩
    refine ⟨rp, List.find?_eq_some_iff_append.mpr ⟨?_, before, after, hresult, ?_⟩, hset, ?_⟩
    · simp [stops, hsocket, hbind]
    · intro rp' hrp'
      have hgoes := hbefore rp' hrp'
      cases hsock : rp'.socket with
      | false => simp [stops, hsock]
      | true => simpa [stops, hsock] using hgoes hsock
    · simpa using hlisten
  · rintro ⟨rp, hfind, hset, hlisten⟩
    obtain ⟨hstops, before, after, hresult, hbefore⟩ := List.find?_eq_some_iff_append.mp hfind
    obtain ⟨hsocket, hbind⟩ : rp.socket = true ∧ rp.bind = true := by
      simpa [stops, hset] using hstops
    refine ⟨before, rp, after, hresult, ?_, hsocket, hset, hbind, by simp [hlisten]⟩
    intro rp' hrp' hsock
    simpa [stops, hsock] using hbefore rp' hrp'

/-! ## 6. The account is kept -/

theorem accounted_failed (w : World) (call : Call) :
    Accounted w call ⟨none, none, ⟨w.socks, w.freed + call.lists⟩⟩ := by
  refine ⟨fun _ => rfl, ?_, rfl⟩
  intro fd h
  exact nomatch h

theorem accounted_returned (num : Numbering) (w : World) {call : Call} {addr : Address}
    (addrlen : Option ℕ) (h : call.addresses.find? (·.2) = some (addr, true)) :
    Accounted w call ⟨some (num.next w.socks), addrlen,
      ⟨(num.next w.socks, call.wanted addr) :: w.socks, w.freed + call.lists⟩⟩ := by
  refine ⟨?_, ?_, rfl⟩
  · intro h
    exact nomatch h
  intro fd hfd
  rw [← Option.some.inj hfd]
  exact ⟨num.fresh _, addr, h, rfl⟩

theorem inetConnect_accounted (num : Numbering) (w : World) (result : Option (List AddrInfo)) :
    Accounted w (.inetConnect result) (inetConnect num result w) := by
  cases result with
  | none => exact accounted_failed w _
  | some result =>
    rw [inetConnect, connectLoop_eq]
    cases hfind : result.find? connects with
    | none => exact accounted_failed w (.inetConnect (some result))
    | some rp =>
      have hworks : connects rp = true := List.find?_some hfind
      apply accounted_returned num w
      exact find?_addresses (fun _ h => h) hfind hworks

theorem inetBind_accounted (num : Numbering) (w : World) (result : Option (List AddrInfo)) :
    Accounted w (.inetBind result) (inetBind num result w) := by
  cases result with
  | none => exact accounted_failed w _
  | some result =>
    rw [inetBind, inetPassiveSocket, passiveLoop_eq]
    cases hfind : result.find? (stops false) with
    | none => exact accounted_failed w (.inetBind (some result))
    | some rp =>
      have hworks : stops false rp = true := List.find?_some hfind
      apply accounted_returned num w
      exact find?_addresses (fun _ h => h) hfind hworks

/-- Nothing is lost if the loop is not left with a socket for which `listen()` then fails. -/
theorem inetListen_accounted (num : Numbering) (w : World) {result : Option (List AddrInfo)}
    (h : ∀ l, result = some l → ¬ListenFails l) :
    Accounted w (.inetListen result) (inetListen num result w) := by
  cases result with
  | none => exact accounted_failed w _
  | some result =>
    rw [inetListen, inetPassiveSocket, passiveLoop_eq]
    cases hfind : result.find? (stops true) with
    | none => exact accounted_failed w (.inetListen (some result))
    | some rp =>
      cases hset : rp.setsockopt with
      | false =>
        simp only [hset, Bool.not_false, Bool.and_self, if_true]
        exact accounted_failed w (.inetListen (some result))
      | true =>
        -- the loop was left at this address, so it is the one for which `listen()` is called
        have hlisten : rp.listen = true := by
          by_contra hfails
          exact h result rfl ((listenFails_iff _).mpr ⟨rp, hfind, hset, by simpa using hfails⟩)
        obtain ⟨hsocket, hbind⟩ : rp.socket = true ∧ rp.bind = true := by
          simpa [stops, hset] using List.find?_some hfind
        simp only [hset, hlisten, Bool.not_true, Bool.and_false, Bool.false_eq_true, if_false,
          if_true, set_new]
        apply accounted_returned num w
        refine find?_addresses ?_ hfind ?_
        · intro rp' hall
          simp only [Bool.and_eq_true] at hall
          simp [stops, hall]
        · simp [hsocket, hset, hbind, hlisten]

/-- The socket for which `listen()` fails stays open, though -1 is returned. -/
theorem inetListen_lost (num : Numbering) (w : World) {result : List AddrInfo}
    (h : ListenFails result) : ∃ rp ∈ result, inetListen num (some result) w =
      ⟨none, none, ⟨(num.next w.socks, .bound rp.addr) :: w.socks, w.freed + 1⟩⟩ := by
  obtain ⟨rp, hfind, hset, hlisten⟩ := (listenFails_iff _).mp h
  refine ⟨rp, List.mem_of_find?_eq_some hfind, ?_⟩
  rw [inetListen, inetPassiveSocket, passiveLoop_eq, hfind]
  simp only [hset, hlisten, Bool.not_true, Bool.and_false, Bool.false_eq_true, if_false,
    Bool.not_false, if_true, World.freeaddrinfo]

/-- `unixConnect()` and `unixBind()` differ in what they make of the socket. -/
theorem unixSocket_accounted (num : Numbering) (w : World) (path : Option CStr) (c : UnixCalls)
    {call : Call} (hlists : call.lists = 0)
    (haddrs : call.addresses =
      (unixAddress path c.addr).toList.map fun addr => (addr, c.socket && c.ok)) :
    Accounted w call (unixSocket num call.wanted path c w) := by
  have hfailed := accounted_failed w call
  rw [hlists] at hfailed
  rw [unixSocket]
  cases haddr : unixAddress path c.addr with
  | none => exact hfailed
  | some addr =>
    cases hsocket : c.socket with
    | false => exact hfailed
    | true =>
      cases hok : c.ok with
      | false =>
        simp only [Bool.not_true, Bool.not_false, Bool.false_eq_true, if_false, if_true]
        rw [show (w.addSocket num).1 = num.next w.socks from rfl, close_addSocket]
        exact hfailed
      | true =>
        have hfirst : call.addresses.find? (·.2) = some (addr, true) := by
          rw [haddrs, haddr, hsocket, hok]
          rfl
        have hreturned := accounted_returned num w none hfirst
        rw [hlists, Nat.add_zero, ← set_new num w .made] at hreturned
        exact hreturned

/-- **The account of descriptors and address lists is kept by every call**, unless `listen()` fails
in `inetListen()`. -/
theorem accounted_iff (num : Numbering) (w : World) (call : Call) :
    Accounted w call (call.run num w) ↔
      ∀ result, call = .inetListen (some result) → ¬ListenFails result := by
  constructor
  · rintro h result rfl hfails
    obtain ⟨rp, -, heq⟩ := inetListen_lost num w hfails
    rw [Call.run, heq] at h
    exact List.cons_ne_self _ _ (h.failed rfl)
  · intro h
    cases call with
    | inetConnect result => exact inetConnect_accounted num w result
    | inetListen result =>
      apply inetListen_accounted num w
      rintro l rfl
      exact h l rfl
    | inetBind result => exact inetBind_accounted num w result
    | unixConnect path c => exact unixSocket_accounted num w path c rfl rfl
    | unixBind path c => exact unixSocket_accounted num w path c rfl rfl

/-- Descriptors are numbered upwards. -/
def upwards : Numbering where
  next socks := (socks.map Prod.fst).sum + 1
  fresh := by
    intro socks sock hsock
    have hmem : sock.1 ∈ socks.map Prod.fst := List.mem_map_of_mem hsock
    have hle : sock.1 ≤ (socks.map Prod.fst).sum := by
      apply List.single_le_sum _ _ hmem
      intro n _
      exact Nat.zero_le n
    omega

/-- One address, for which all works but `listen()`: -1 is returned, and the socket is open. -/
theorem inetListen_leaks :
    ¬Accounted ⟨[], 0⟩ (.inetListen (some [⟨([], 16), true, true, true, true, false⟩]))
      (inetListen upwards (some [⟨([], 16), true, true, true, true, false⟩]) ⟨[], 0⟩) ∧
    inetListen upwards (some [⟨([], 16), true, true, true, true, false⟩]) ⟨[], 0⟩ =
      ⟨none, none, ⟨[(1, .bound ([], 16))], 1⟩⟩ := by
  refine ⟨fun h => ?_, by decide⟩
  exact absurd (h.failed rfl) (by decide)

end Tlpi.SocketHelpers
