import Kpr.Keyboard.Session
import Kpr.PongClient.Paddle

open Keyboard PongClient

namespace EndToEnd

-- What happens in the keyboard server and in the three threads of the client.
inductive PongEvent
  -- A scan code is handled.
  | scan (buf : Nat)
  -- `thread_kb` calls the keyboard server.
  | poll
  -- `thread_kb` goes on to the next code.
  | key
  -- One of the paddles goes on.
  | run (i : Player)

structure Pong where
  -- The keyboard server, with the scan codes it has handled.
  keyboard : Session
  -- The part of the list `codes` of `thread_kb` which is still in front of it.
  codes    : List Nat
  client   : Client
  -- The replies which have been received and the codes which have been used, latest first.
  replies  : List (List Nat)
  used     : List Nat
  -- How many polls there have been while a key was held.
  held     : Key → Nat

namespace Pong

def start : Pong where
  keyboard := .boot
  codes    := []
  client   := .start
  replies  := []
  used     := []
  held _   := 0

-- The list `codes` is empty when the keyboard is polled, and each code is put in front.
def step (s : Pong) : PongEvent → Option Pong
  | .scan buf =>
    let currentlyPressed := handle buf s.keyboard.currentlyPressed
    some { s with keyboard := { currentlyPressed, codes := buf :: s.keyboard.codes } }
  | .poll =>
    match s.codes with
    | []     =>
      let reply := received (dispatch Protocol.Keycode s.keyboard.currentlyPressed).snd
      some { s with
        codes   := reply.foldl (fun codes code => code :: codes) []
        replies := reply :: s.replies
        held k  := s.held k + if k.lastCode s.keyboard.codes = some k.makeCode then 1 else 0 }
    | _ :: _ => none
  | .key =>
    match s.codes with
    | []          => none
    | it :: codes => some { s with codes, client := s.client.step (.key it), used := it :: s.used }
  | .run i => some { s with client := s.client.step (.run i) }

-- A key which is pressed is not held already, unless it has been the last one to be pressed. The
-- paddles are not moved across the ends of the screen.
def Steady (s : Pong) : PongEvent → Prop
  | .scan buf => s.keyboard.PressesFront buf
  | .key      => ∀ it ∈ s.codes.head?, ∀ i,
    (target it = some (i, .up) → 30 ≤ (s.client.paddles i).pos) ∧
    (target it = some (i, .down) → (s.client.paddles i).pos + 30 ≤ 1023)
  | _         => True

end Pong

inductive PongStep (s : Pong) (e : PongEvent) (s' : Pong) : Prop
  | taken (h : s.step e = some s')

end EndToEnd

namespace PongClient.Player

-- The keys which move a paddle.

def upKey : Player → Key
  | p0 => .UP_1
  | p1 => .UP_2

def downKey : Player → Key
  | p0 => .DOWN_1
  | p1 => .DOWN_2

end PongClient.Player
