import CppProjects.Http.Headers

/-!
# The web server

`accept_request` and the functions it calls.  A request comes from a socket; the file
system, the calls of the operating system and the programs behind CGI are a `Host`.
There is no outcome where the source writes over the end of an array, reads a string
that has no end or closes a file that is not open.
-/

namespace CppProjects

namespace Httpd

/-- What `stat` says: a directory, and a file that somebody may execute. -/
structure FileMode where
  directory : Bool
  executable : Bool
deriving DecidableEq, Repr

/-- A CGI program with its environment and its standard input. -/
structure Cgi where
  path : Text
  requestMethod : Text
  queryString : Option Text
  contentLength : Option ℤ
  stdin : Text
deriving DecidableEq, Repr

structure Host where
  stat : Text → Option FileMode
  /-- The contents of a file that can be opened. -/
  fopen : Text → Option Text
  /-- Both calls of `pipe`, and `fork`. -/
  pipes : Bool × Bool
  fork : Bool
  /-- What a program writes. -/
  run : Cgi → Text

/-- What the arrays on the stack hold before they are written, and `char c`. -/
structure Stale where
  acceptBuf : Text
  cgiBuf : Text
  badBuf : Text
  c : Char

/-- What the client receives, the program that ran, what is left in the socket, and
whether it was closed. -/
structure Outcome where
  sent : Text
  ran : Option Cgi
  unread : Text
  closed : Bool
deriving DecidableEq, Repr

/-- `sprintf` and `strcat` into an array. -/
def fits (size : ℕ) (text : Text) : Option Text := if text.length < size then some text else none

/-! ## Responses -/

def statusOk : Text := "HTTP/1.0 200 OK\r\n".toList

def serverString : Text := "Server: jdbhttpd/0.1.0\r\n".toList

def contentType : Text := "Content-Type: text/html\r\n".toList

def headers : Text := statusOk ++ serverString ++ contentType ++ "\r\n".toList

def notFound : Text :=
  "HTTP/1.0 404 NOT FOUND\r\n".toList ++ serverString ++ contentType ++ "\r\n".toList ++
  "<HTML><TITLE>Not Found</TITLE>\r\n".toList ++
  "<BODY><P>The server could not fulfill\r\n".toList ++
  "your request because the resource specified\r\n".toList ++
  "is unavailable or nonexistent.\r\n".toList ++ "</BODY></HTML>\r\n".toList

def unimplemented : Text :=
  "HTTP/1.0 501 Method Not Implemented\r\n".toList ++ serverString ++ contentType ++
  "\r\n".toList ++ "<HTML><HEAD><TITLE>Method Not Implemented\r\n".toList ++
  "</TITLE></HEAD>\r\n".toList ++ "<BODY><P>HTTP request method not supported.\r\n".toList ++
  "</BODY></HTML>\r\n".toList

def cannotExecute : Text :=
  "HTTP/1.0 500 Internal Server Error\r\n".toList ++ "Content-type: text/html\r\n".toList ++
  "\r\n".toList ++ "<P>Error prohibited CGI execution.\r\n".toList

/-- Each text is printed into the buffer, and then the whole buffer is sent. -/
def sendBuffers : Text → List Text → Text
  | _, [] => []
  | buf, text :: texts =>
      let buf := overwrite buf 0 (text ++ [nul])
      buf ++ sendBuffers buf texts

def badRequest (stale : Text) : Text :=
  sendBuffers stale
    ["HTTP/1.0 400 BAD REQUEST\r\n".toList, "Content-type: text/html\r\n".toList, "\r\n".toList,
      "<P>Your browser sent a bad request, ".toList,
      "such as a POST without a Content-Length.\r\n".toList]

/-! ## Files -/

/-- What `fgets` stores, what it leaves of the file, and whether it met the end. -/
structure Chunk where
  text : Text
  rest : Text
  eof : Bool
deriving DecidableEq, Repr

def fgets : ℕ → Text → Chunk
  | 0, file => ⟨[], file, false⟩
  | _ + 1, [] => ⟨[], [], true⟩
  | room + 1, c :: file =>
      if c = '\n' then ⟨[c], file, false⟩
      else
        let next := fgets room file
        { next with text := c :: next.text }

def catLoop : ℕ → Text → Text
  | 0, _ => []
  | turns + 1, file =>
      let chunk := fgets (bufferSize - 1) file
      if chunk.eof then [] else cString chunk.text ++ catLoop turns chunk.rest

/-- Each turn of the loop but the last one takes a character of the file. -/
def cat (file : Text) : Text := catLoop (file.length + 1) file

/-- `buf[0] = 'A'; buf[1] = '\0';` with `numchars = 1`, before headers are read. -/
def startReading (stale input : Text) : Reader := ⟨overwrite stale 0 ['A', nul], 1, input⟩

def serveFile (host : Host) (stale : Stale) (filename input : Text) : Option Outcome :=
  let s := discardHeaders (startReading stale.cgiBuf input)
  match host.fopen filename with
  -- `not_found` is followed by `fclose(NULL)`
  | none => none
  | some file => some ⟨headers ++ cat file, none, s.input, true⟩

/-! ## Programs -/

/-- `content_length` characters of the socket for the program; where none is left, the
last one again. -/
def relay : ℕ → Char → Text → Text × Text
  | 0, _, input => ([], input)
  | count + 1, c, [] =>
      let next := relay count c []
      (c :: next.1, next.2)
  | count + 1, _, c :: input =>
      let next := relay count c input
      (c :: next.1, next.2)

/-- Both calls of `pipe` and the `fork` succeed. -/
def Host.forks (host : Host) : Bool := host.pipes.1 && host.pipes.2 && host.fork

/-- The child prints its environment into two arrays and becomes the program.  Before that
it sends the status line, and so does the parent. -/
def launch (host : Host) (setting : Text) (program : Cgi) (unread : Text) : Option Outcome := do
  let _ ← fits 255 ("REQUEST_METHOD=".toList ++ program.requestMethod)
  let _ ← fits 255 setting
  return ⟨statusOk ++ statusOk ++ host.run program, some program, unread, true⟩

def executeGet (host : Host) (stale : Stale) (path method queryString input : Text) :
    Option Outcome :=
  let s := discardHeaders (startReading stale.cgiBuf input)
  if host.forks then
    launch host ("QUERY_STRING=".toList ++ queryString)
      ⟨path, method, some queryString, none, []⟩ s.input
  else some ⟨cannotExecute, none, s.input, true⟩

def executePost (host : Host) (stale : Stale) (path method input : Text) : Option Outcome := do
  let (contentLength, s) ← readHeaders (getLine (startReading stale.cgiBuf input)) (-1)
  if contentLength = -1 then return ⟨badRequest stale.badBuf, none, s.input, true⟩
  else if host.forks then
    let body := relay contentLength.toNat stale.c s.input
    launch host ("CONTENT_LENGTH=".toList ++ decimal contentLength)
      ⟨path, method, none, some contentLength, body.1⟩ body.2
  else return ⟨cannotExecute, none, s.input, true⟩

/-! ## Requests -/

/-- The loop that copies a word up to white space, into an array of 255 characters. -/
def word (text : Text) : Text := (text.take 254).takeWhile fun c => !isSpace c

/-- What a request asks for; the strings are in `method` and `url`. -/
structure Request where
  method : Text
  url : Text
  isGet : Bool
  isPost : Bool
deriving DecidableEq, Repr

/-- The method and the URL of the line in the buffer.  The first loop does not look at
`numchars`, the others do. -/
def parseRequest (s : Reader) : Request :=
  let method := word s.buf
  let rest := ((s.buf.take s.numchars).drop method.length).dropWhile isSpace
  { method := cString method
    url := cString (word rest)
    isGet := sameName (cString method) "GET".toList
    isPost := sameName (cString method) "POST".toList }

/-- The part of a URL before the first `?`, or all of it. -/
def beforeQuery (url : Text) : Text := url.takeWhile (· != '?')

/-- `url` and `query_string` once a `GET` is split at its first `?`. -/
def Request.target (request : Request) : Text :=
  if request.isGet then beforeQuery request.url else request.url

def Request.queryString (request : Request) : Text :=
  request.url.drop ((beforeQuery request.url).length + 1)

def indexHtml : Text := "index.html".toList

/-- `path`, before and after it is found to be a directory. -/
def requestPath (target : Text) : Option Text := do
  let path ← fits 512 ("htdocs".toList ++ target)
  if path.getLast? = some '/' then fits 512 (path ++ indexHtml) else some path

def directoryPath (mode : FileMode) (path : Text) : Option Text :=
  if mode.directory then fits 512 (path ++ '/' :: indexHtml) else some path

def Request.isCgi (request : Request) (mode : FileMode) : Bool :=
  request.isPost || request.isGet && decide ('?' ∈ request.url) || mode.executable

/-- `accept_request` once the request line is parsed. -/
def dispatch (host : Host) (stale : Stale) (request : Request) (s : Reader) : Option Outcome :=
  if !request.isGet && !request.isPost then
    -- the function returns, and the socket stays open
    some ⟨unimplemented, none, s.input, false⟩
  else do
    let path ← requestPath request.target
    match host.stat path with
    | none => return ⟨notFound, none, (discardHeaders s).input, true⟩
    | some mode =>
        let path ← directoryPath mode path
        if !request.isCgi mode then serveFile host stale path s.input
        else if request.isGet then
          executeGet host stale path request.method request.queryString s.input
        else executePost host stale path request.method s.input

def acceptRequest (host : Host) (stale : Stale) (input : Text) : Option Outcome :=
  let s := getLine ⟨stale.acceptBuf, 0, input⟩
  dispatch host stale (parseRequest s) s

end Httpd

end CppProjects
