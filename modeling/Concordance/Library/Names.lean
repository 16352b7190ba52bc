import Concordance.Graph.Basic

/-!
# The library's names

The classes, functions and other names that every module sees, and the names of the standard library's
modules. Classes come with their bases, which stand before them.
-/

namespace Concordance.Library

def classes : List (String × List String) := [
    ("object", []), ("BaseException", ["object"]), ("bytearray", ["object"]), ("bytes", ["object"]),
    ("classmethod", ["object"]), ("complex", ["object"]), ("dict", ["object"]), ("enumerate", ["object"]),
    ("filter", ["object"]), ("float", ["object"]), ("frozenset", ["object"]), ("int", ["object"]),
    ("list", ["object"]), ("map", ["object"]), ("memoryview", ["object"]), ("property", ["object"]),
    ("range", ["object"]), ("reversed", ["object"]), ("set", ["object"]), ("slice", ["object"]),
    ("staticmethod", ["object"]), ("str", ["object"]), ("super", ["object"]), ("tuple", ["object"]),
    ("type", ["object"]), ("zip", ["object"]), ("BaseExceptionGroup", ["BaseException"]),
    ("Exception", ["BaseException"]), ("GeneratorExit", ["BaseException"]),
    ("KeyboardInterrupt", ["BaseException"]), ("SystemExit", ["BaseException"]), ("bool", ["int"]),
    ("ArithmeticError", ["Exception"]), ("AssertionError", ["Exception"]), ("AttributeError", ["Exception"]),
    ("BufferError", ["Exception"]), ("EOFError", ["Exception"]), ("EnvironmentError", ["Exception"]),
    ("IOError", ["Exception"]), ("ImportError", ["Exception"]), ("LookupError", ["Exception"]),
    ("MemoryError", ["Exception"]), ("NameError", ["Exception"]), ("OSError", ["Exception"]),
    ("ReferenceError", ["Exception"]), ("RuntimeError", ["Exception"]), ("StopAsyncIteration", ["Exception"]),
    ("StopIteration", ["Exception"]), ("SyntaxError", ["Exception"]), ("SystemError", ["Exception"]),
    ("TypeError", ["Exception"]), ("ValueError", ["Exception"]), ("Warning", ["Exception"]),
    ("BlockingIOError", ["OSError"]), ("BytesWarning", ["Warning"]), ("ChildProcessError", ["OSError"]),
    ("ConnectionError", ["OSError"]), ("DeprecationWarning", ["Warning"]), ("EncodingWarning", ["Warning"]),
    ("ExceptionGroup", ["BaseExceptionGroup", "Exception"]), ("FileExistsError", ["OSError"]),
    ("FileNotFoundError", ["OSError"]), ("FloatingPointError", ["ArithmeticError"]), ("FutureWarning", ["Warning"]),
    ("ImportWarning", ["Warning"]), ("IndentationError", ["SyntaxError"]), ("IndexError", ["LookupError"]),
    ("InterruptedError", ["OSError"]), ("IsADirectoryError", ["OSError"]), ("KeyError", ["LookupError"]),
    ("ModuleNotFoundError", ["ImportError"]), ("NotADirectoryError", ["OSError"]),
    ("NotImplementedError", ["RuntimeError"]), ("OverflowError", ["ArithmeticError"]),
    ("PendingDeprecationWarning", ["Warning"]), ("PermissionError", ["OSError"]),
    ("ProcessLookupError", ["OSError"]), ("RecursionError", ["RuntimeError"]), ("ResourceWarning", ["Warning"]),
    ("RuntimeWarning", ["Warning"]), ("SyntaxWarning", ["Warning"]), ("TimeoutError", ["OSError"]),
    ("UnboundLocalError", ["NameError"]), ("UnicodeError", ["ValueError"]), ("UnicodeWarning", ["Warning"]),
    ("UserWarning", ["Warning"]), ("ZeroDivisionError", ["ArithmeticError"]),
    ("BrokenPipeError", ["ConnectionError"]), ("ConnectionAbortedError", ["ConnectionError"]),
    ("ConnectionRefusedError", ["ConnectionError"]), ("ConnectionResetError", ["ConnectionError"]),
    ("TabError", ["IndentationError"]), ("UnicodeDecodeError", ["UnicodeError"]),
    ("UnicodeEncodeError", ["UnicodeError"]), ("UnicodeTranslateError", ["UnicodeError"])]

def untypedNames : List String := ["Ellipsis", "NotImplemented"]

def functions : List String := [
    "abs", "aiter", "all", "anext", "any", "ascii", "bin", "breakpoint", "callable", "chr", "compile", "copyright",
    "credits", "delattr", "dir", "divmod", "eval", "exec", "exit", "format", "getattr", "globals", "hasattr",
    "hash", "help", "hex", "id", "input", "isinstance", "issubclass", "iter", "len", "license", "locals", "max",
    "min", "next", "oct", "open", "ord", "pow", "print", "quit", "repr", "round", "setattr", "sorted", "sum", "vars"]

def moduleNames : List String := ["__name__", "__file__", "__doc__", "__package__"]

def anyList : Recipe := .list (.existing .unknown)

def valueOf? (name : String) : Option Recipe :=
  match name with
  | "bool" => some (.existing .bool)
  | "bytes" | "bytearray" => some (.existing .bytes)
  | "complex" => some (.existing .complex)
  | "dict" => some (.dict (.existing .unknown) (.existing .unknown))
  | "float" => some (.existing .float)
  | "int" => some (.existing .int)
  | "str" => some (.existing .str)
  | "frozenset" | "list" | "set" | "tuple" | "filter" | "map" | "reversed" | "zip" => some anyList
  | "enumerate" => some (.list (.tuple [.existing .int, .existing .unknown]))
  | "range" => some (.list (.existing .int))
  | _ => none

def resultOf (name : String) : Recipe :=
  match name with
  | "abs" | "hash" | "id" | "len" | "ord" | "round" | "sum" => .existing .int
  | "all" | "any" | "callable" | "hasattr" | "isinstance" | "issubclass" => .existing .bool
  | "ascii" | "bin" | "chr" | "format" | "hex" | "input" | "oct" | "repr" => .existing .str
  | "print" | "setattr" | "delattr" => .existing .none
  | "dir" => .list (.existing .str)
  | "divmod" => .tuple [.existing .int, .existing .int]
  | "globals" | "locals" => .dict (.existing .str) (.existing .unknown)
  | "sorted" => anyList
  | _ => .existing .unknown

def modules : List String := [
    "__future__", "_abc", "_aix_support", "_ast", "_asyncio", "_bisect", "_blake2", "_bootsubprocess", "_bz2",
    "_codecs", "_codecs_cn", "_codecs_hk", "_codecs_iso2022", "_codecs_jp", "_codecs_kr", "_codecs_tw",
    "_collections", "_collections_abc", "_compat_pickle", "_compression", "_contextvars", "_crypt", "_csv",
    "_ctypes", "_curses", "_curses_panel", "_datetime", "_dbm", "_decimal", "_elementtree", "_frozen_importlib",
    "_frozen_importlib_external", "_functools", "_gdbm", "_hashlib", "_heapq", "_imp", "_io", "_json", "_locale",
    "_lsprof", "_lzma", "_markupbase", "_md5", "_msi", "_multibytecodec", "_multiprocessing", "_opcode",
    "_operator", "_osx_support", "_overlapped", "_pickle", "_posixshmem", "_posixsubprocess", "_py_abc",
    "_pydecimal", "_pyio", "_queue", "_random", "_scproxy", "_sha1", "_sha256", "_sha3", "_sha512", "_signal",
    "_sitebuiltins", "_socket", "_sqlite3", "_sre", "_ssl", "_stat", "_statistics", "_string", "_strptime",
    "_struct", "_symtable", "_thread", "_threading_local", "_tkinter", "_tokenize", "_tracemalloc", "_typing",
    "_uuid", "_warnings", "_weakref", "_weakrefset", "_winapi", "_zoneinfo", "abc", "aifc", "antigravity",
    "argparse", "array", "ast", "asynchat", "asyncio", "asyncore", "atexit", "audioop", "base64", "bdb", "binascii",
    "bisect", "builtins", "bz2", "cProfile", "calendar", "cgi", "cgitb", "chunk", "cmath", "cmd", "code", "codecs",
    "codeop", "collections", "colorsys", "compileall", "concurrent", "configparser", "contextlib", "contextvars",
    "copy", "copyreg", "crypt", "csv", "ctypes", "curses", "dataclasses", "datetime", "dbm", "decimal", "difflib",
    "dis", "distutils", "doctest", "email", "encodings", "ensurepip", "enum", "errno", "faulthandler", "fcntl",
    "filecmp", "fileinput", "fnmatch", "fractions", "ftplib", "functools", "gc", "genericpath", "getopt", "getpass",
    "gettext", "glob", "graphlib", "grp", "gzip", "hashlib", "heapq", "hmac", "html", "http", "idlelib", "imaplib",
    "imghdr", "imp", "importlib", "inspect", "io", "ipaddress", "itertools", "json", "keyword", "lib2to3",
    "linecache", "locale", "logging", "lzma", "mailbox", "mailcap", "marshal", "math", "mimetypes", "mmap",
    "modulefinder", "msilib", "msvcrt", "multiprocessing", "netrc", "nis", "nntplib", "nt", "ntpath", "nturl2path",
    "numbers", "opcode", "operator", "optparse", "os", "ossaudiodev", "pathlib", "pdb", "pickle", "pickletools",
    "pipes", "pkgutil", "platform", "plistlib", "poplib", "posix", "posixpath", "pprint", "profile", "pstats",
    "pty", "pwd", "py_compile", "pyclbr", "pydoc", "pydoc_data", "pyexpat", "queue", "quopri", "random", "re",
    "readline", "reprlib", "resource", "rlcompleter", "runpy", "sched", "secrets", "select", "selectors", "shelve",
    "shlex", "shutil", "signal", "site", "smtpd", "smtplib", "sndhdr", "socket", "socketserver", "spwd", "sqlite3",
    "sre_compile", "sre_constants", "sre_parse", "ssl", "stat", "statistics", "string", "stringprep", "struct",
    "subprocess", "sunau", "symtable", "sys", "sysconfig", "syslog", "tabnanny", "tarfile", "telnetlib", "tempfile",
    "termios", "textwrap", "this", "threading", "time", "timeit", "tkinter", "token", "tokenize", "tomllib",
    "trace", "traceback", "tracemalloc", "tty", "turtle", "turtledemo", "types", "typing", "unicodedata",
    "unittest", "urllib", "uu", "uuid", "venv", "warnings", "wave", "weakref", "webbrowser", "winreg", "winsound",
    "wsgiref", "xdrlib", "xml", "xmlrpc", "zipapp", "zipfile", "zipimport", "zlib", "zoneinfo"]

end Concordance.Library
